import Garbage.Foundation.Machine
import Garbage.Foundation.Prog
import Garbage.Foundation.Ring
import Garbage.Foundation.CondVar
import Garbage.Foundation.ByteMemory
import Garbage.NonCollidableHash.Algorithm
import Garbage.NonCollidableHash.Tables
import Garbage.InplaceFixedDeque.UninitializedCopy
import Garbage.InplaceFixedDeque.Deque
import Garbage.InplaceFixedDeque.Refinement
import Garbage.InplaceFixedDeque.Lifetime
import Garbage.ContainersUtility.CommitOrRollback
import Garbage.MemoryPool.AllocatedItemMap
import Garbage.MemoryPool.Guarding
import Garbage.UnboundedQueue.Sections
import Garbage.UnboundedQueue.Effects
import Garbage.UnboundedQueue.Wakeup
import Garbage.UnboundedQueue.Progress
import Garbage.UnboundedQueue.Conservation
import Garbage.BoundedConcurrentQueue.Queue
import Garbage.BoundedConcurrentQueue.Wait
import Garbage.LimitedScheduler.Scheduler
import Garbage.LimitedScheduler.Steps
import Garbage.LimitedScheduler.Wakeup
import Garbage.LimitedScheduler.ExactlyOnce
import Garbage.LimitedScheduler.ThreadLimit
import Garbage.Foundation.Monitor
import Garbage.Foundation.OwnedFiles
import Garbage.LongRunning.PeriodicFlexible
import Garbage.LongRunning.WakeUp
import Garbage.LongRunning.LongRunningTask
import Garbage.LongRunning.OneWorker
import Garbage.LongRunning.BlockedStop
import Garbage.ContentManager.ContentManager
import Garbage.ContentManager.Steps
import Garbage.ContentManager.Orphans
import Garbage.Foundation.SeekableStream
import Garbage.ContentManager.LazyConstructableStream
import Garbage.ContentManager.ContentProvider
import Garbage.ContentManager.Disposal
import Garbage.ContentManager.MakeDocument
import Garbage.Foundation.Assertion
import Garbage.Foundation.Zipper
import Garbage.Foundation.AvlBalance
import Garbage.RandomAccessList.Node
import Garbage.RandomAccessList.AvlTreeStump
import Garbage.RandomAccessList.Layout
import Garbage.RandomAccessList.Rebalance
import Garbage.RandomAccessList.Steps
import Garbage.RandomAccessList.Relink
import Garbage.RandomAccessList.Contents
import Garbage.RandomAccessList.Bulk
import Garbage.RandomAccessList.Dismantle
import Garbage.RandomAccessList.SelfCheck
import Garbage.RandomAccessList.Indexing
import Garbage.RandomAccessList.Asserted
import Garbage.RandomAccessList.Agreement
import Garbage.RandomAccessList.Positions
import Garbage.RandomAccessList.BulkAgreement
import Garbage.RandomAccessList.Container
import Garbage.RandomAccessList.Operations
import Garbage.RandomAccessList.Implementation
import Garbage.RandomAccessList.Contract
import Garbage.RandomAccessList.Elements
import Garbage.RandomAccessList.Ownership
import Garbage.RandomAccessList.Calls
import Garbage.RandomAccessList.Simulation
import Garbage.RandomAccessList.Refinement
import Garbage.RandomAccessList.Stability
import Garbage.RandomAccessList.Balance
import Garbage.RandomAccessList.ListCalls
import Garbage.RandomAccessList.Assertions
import Garbage.RandomAccessList.Ranks
import Garbage.RandomAccessList.Jumps
import Garbage.RandomAccessList.Splicing
import Garbage.RandomAccessList.Destruction
import Garbage.RandomAccessList.Filtering
import Garbage.Foundation.Execution
import Garbage.Foundation.IntrusiveList
import Garbage.Foundation.StableMerge
import Garbage.Foundation.Comparisons
import Garbage.RandomAccessList.Merging
import Garbage.RandomAccessList.Comparators
import Garbage.RandomAccessList.Grown
import Garbage.RandomAccessList.Rollback
import Garbage.RandomAccessList.Insertions
import Garbage.RandomAccessList.Access
import Garbage.RandomAccessList.Resizing
import Garbage.RandomAccessList.Construction
import Garbage.RandomAccessList.Assignment
import Garbage.RandomAccessList.Constructors
import Garbage.RandomAccessList.StrongGuarantee
import Garbage.ImmutableDataDebugAllocator.Controller
import Garbage.ImmutableDataDebugAllocator.Protection
import Garbage.Foundation.Handles
import Garbage.SmallSingleBlockAllocator.Handle
import Garbage.Foundation.Unwinding
import Garbage.ScopeGuards.Guards
import Garbage.ThreadLocalDisposableObjectsCache.Cache
import Garbage.ThreeTierThreadPool.ThreadPool
import Garbage.ThreeTierThreadPool.Steps
import Garbage.ThreeTierThreadPool.Shutdown
import Garbage.MakingNewOrReusing.StoreFactoryMaker
import Garbage.MakingNewOrReusing.Ownership
import Garbage.AssocList.MapList
import Garbage.AssocList.InStep
import Garbage.AssocList.Erasure
import Garbage.AssocList.Merge
import Garbage.Foundation.FirstAccepted
import Garbage.Monads.TryChain
import Garbage.Monads.MayBeExtension
import Garbage.ExceptionHelpers.ContainException
import Garbage.Foundation.BitSmear
import Garbage.BitsAlgorithms.RoundUpPowerOfTwo
import Garbage.LowestLevelAllocator.PagesAccess
import Garbage.LowestLevelAllocator.AreaHeader
import Garbage.RandomAccessList.Stepping
import Garbage.RandomAccessList.Vine
import Garbage.Foundation.Conveyor
import Garbage.Foundation.Draining
import Garbage.BoundedConcurrentQueue.Order
import Garbage.ThreeTierThreadPool.Termination
import Garbage.LinqKit.Expression
import Garbage.LinqKit.ExpressionExpander
import Garbage.LinqKit.Meaning
import Garbage.LinqKit.Query
import Garbage.LinqKit.Expand
import Garbage.LinqKit.PredicateBuilder
import Garbage.Foundation.Completion
import Garbage.ScopeGuards.Cleanup
import Garbage.ExceptionTracker.TrackerHandler
import Garbage.Foundation.Script
import Garbage.ContentManager.Store
import Garbage.ContentManager.Contents
import Garbage.ContentManager.Library
import Garbage.ContentManager.AsLibrary
import Garbage.WinHeap.Objects
import Garbage.MemoryPool.FreeItemMap
import Garbage.MemoryPool.Items
import Garbage.StackWalker.Walker
import Garbage.StackWalker.Report
