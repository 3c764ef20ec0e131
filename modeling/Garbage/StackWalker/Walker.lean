import Garbage.Foundation.Prog
import Mathlib.Logic.Function.Basic

/-!
# The walk over a call stack

`StackWalker::ShowCallstack` loads the modules of the process and asks `StackWalk64` for
one frame after the other.  It describes each by what the debug library knows of its
address, and hands it to `OnCallstackEntry`.  The walk ends where the library has no
further frame, at a frame without a return address, or when too many frames in a row
return to where they are.

An `Environment` is what the operating system and the debug library answer.  Its frames
are numbered, and whatever else it keeps between two calls is a `σ` of its own.  A block
that is freed twice is undefined behaviour, so the program is stuck there, and so is a
walk that does not end within its `fuel`.
-/

namespace Garbage.StackWalker

open Foundation (Prog)

/-- A C string without its zero. -/
abbrev Text : Type := List Char

abbrev Addr : Type := Nat

def STACKWALK_MAX_NAMELEN : Nat := 4 * 1024

def TTBUFLEN : Nat := 8096

def ERROR_SUCCESS : Nat := 0

def ERROR_NOT_ENOUGH_MEMORY : Nat := 8

def ERROR_DLL_INIT_FAILED : Nat := 1114

/-- What `MyStrCpy` leaves in an array of `nMaxDestSize` characters; the source may be null. -/
def myStrCpy (nMaxDestSize : Nat) : Option Text → Text
  | none => []
  | some szSrc => szSrc.take (nMaxDestSize - 1)

/-! ### The data -/

/-- A frame: its program counter and its return address. -/
structure StackFrame where
  addrPC : Addr
  addrReturn : Addr
  deriving DecidableEq

structure Symbol where
  name : Text
  displacement : Addr

structure SourceLine where
  lineNumber : Nat
  fileName : Option Text
  displacement : Nat

/-- What is read of an `IMAGEHLP_MODULE64_V3`. -/
structure ModuleInfo where
  baseOfImage : Addr
  symType : Nat
  moduleName : Text
  loadedImageName : Text
  loadedPdbName : Text

/-- A module in the list of the operating system. -/
structure ModuleEntry where
  img : Text
  mod : Text
  baseAddr : Addr
  size : Nat

structure CallstackEntry where
  offset : Addr
  name : Text
  undName : Text
  undFullName : Text
  offsetFromSymbol : Addr
  offsetFromLine : Nat
  lineNumber : Nat
  lineFileName : Text
  symTypeString : Option String
  moduleName : Text
  baseOfImage : Addr
  loadedImageName : Text

inductive CallstackEntryType
  | firstEntry
  | nextEntry
  | lastEntry
  deriving DecidableEq

/-- The two lines of `OnCallstackEntry`, by their arguments. -/
inductive OutputLine
  | withFile (lineFileName : Text) (lineNumber : Nat) (name : Text) (offsetFromSymbol : Addr)
  | withoutFile (offset : Addr) (moduleName lineFileName name : Text) (offsetFromSymbol : Addr)

/-- The calls of the virtual functions. -/
inductive Event
  | onDbgHelpErr (szFuncName : String) (gle : Nat) (addr : Addr)
  | onLoadModule (img mod : Text) (baseAddr : Addr) (size result : Nat) (symType : String)
      (pdbName : Text)
  | onAfterLoadModules
  | onCallstackEntry (eType : CallstackEntryType) (entry : CallstackEntry)
  | onOutput (line : OutputLine)

/-- What the operating system and the debug library do. -/
structure Environment (σ : Type) where
  /-- whether the heap refuses its `n`th block -/
  refuses : Nat → Bool
  /-- the result of the `n`th `StackWalk64`, and the frame it leaves -/
  stackWalk64 : Nat → Bool × StackFrame
  /-- a symbol, or the error -/
  symGetSymFromAddr64 : Addr → σ → Except Nat Symbol × σ
  /-- the name alone, or all of it -/
  unDecorateSymbolName : (nameOnly : Bool) → Text → Text
  symGetLineFromAddr64 : Option (Addr → σ → Except Nat SourceLine × σ)
  /-- for the larger structure, or the smaller one -/
  symGetModuleInfo64 : Option ((v3 : Bool) → Addr → σ → Option ModuleInfo × σ)
  /-- the error, if the module is not loaded -/
  symLoadModule64 : ModuleEntry → σ → Option Nat × σ
  /-- `CreateToolhelp32Snapshot`, and the modules in it -/
  toolhelp : Option (σ → Option (List ModuleEntry) × σ)
  /-- `EnumProcessModules`: `cbNeeded`, and the modules behind the handles -/
  psapi : Option (σ → Option (Nat × (Nat → ModuleEntry)) × σ)
  sizeofHMODULE : Nat
  /-- the thread is the current one -/
  isCurrentThread : Bool
  /-- the handle of the thread is not null -/
  hThread : Bool
  getThreadContext : σ → Bool × σ

structure World (σ : Type) where
  outside : σ
  /-- the blocks that are in use, by the number of their `Allocate` -/
  blocks : Nat → Bool
  allocations : Nat
  /-- how often the thread has been suspended -/
  suspended : Nat
  lastError : Nat
  useV3Version : Bool
  events : List Event

structure Members where
  initialized : Bool
  lockerIsLocked : Bool
  hDbhHelp : Bool
  maxRecursionCount : Int
  verbose : Bool

section Code

variable {σ : Type}

abbrev Member (σ β : Type) : Type := Prog (World σ) Empty β

/-! ### Calls to the outside -/

def external {β : Type} (f : σ → β × σ) : Member σ β := fun w =>
  some (.ok (f w.outside).1, { w with outside := (f w.outside).2 })

def log (event : Event) : Member σ PUnit :=
  Prog.modify fun w => { w with events := w.events ++ [event] }

def setLastError (gle : Nat) : Member σ PUnit := Prog.modify fun w => { w with lastError := gle }

def onDbgHelpErr (szFuncName : String) (gle : Nat) (addr : Addr) : Member σ PUnit :=
  log (.onDbgHelpErr szFuncName gle addr)

/-- `SuspendThread` -/
def suspendThread (env : Environment σ) : Member σ PUnit :=
  Prog.modify fun w => { w with suspended := if env.hThread then w.suspended + 1 else w.suspended }

/-- `ResumeThread`, which leaves a thread alone that is not suspended. -/
def resumeThread (env : Environment σ) : Member σ PUnit :=
  Prog.modify fun w => { w with suspended := if env.hThread then w.suspended - 1 else w.suspended }

/-! ### Modules -/

variable (env : Environment σ)

/-- `m_heap->Allocate`, with no block where the heap refuses one. -/
def allocate : Member σ (Option Nat) := fun w =>
  if env.refuses w.allocations then some (.ok none, { w with allocations := w.allocations + 1 })
  else some (.ok (some w.allocations),
    { w with
      blocks := Function.update w.blocks w.allocations true
      allocations := w.allocations + 1 })

/-- `m_heap->Deallocate` of a block in use. -/
def deallocate (block : Nat) : Member σ PUnit := Prog.update fun w =>
  if w.blocks block then some { w with blocks := Function.update w.blocks block false } else none

/-- `if (p != NULL) m_heap->Deallocate(p)` -/
def deallocateIfAny : Option Nat → Member σ PUnit
  | none => pure PUnit.unit
  | some block => deallocate block

def symTypeName : Nat → Option String
  | 0 => some "-nosymbols-"
  | 1 => some "COFF"
  | 2 => some "CV"
  | 3 => some "PDB"
  | 4 => some "-exported-"
  | 5 => some "-deferred-"
  | 6 => some "SYM"
  | 7 => some "DIA"
  | 8 => some "Virtual"
  | _ => none

/-- The first attempt of `GetModuleInfo`, with the larger structure. -/
def getModuleInfoV3 (symGetModuleInfo64 : Bool → Addr → σ → Option ModuleInfo × σ)
    (baseAddr : Addr) : Member σ (Option ModuleInfo) := fun w =>
  if w.useV3Version then external (symGetModuleInfo64 true baseAddr) w else some (.ok none, w)

def getModuleInfo (baseAddr : Addr) : Member σ (Option ModuleInfo) :=
  match env.symGetModuleInfo64 with
  | none => do
    setLastError ERROR_DLL_INIT_FAILED
    pure none
  | some symGetModuleInfo64 => do
    match ← allocate env with
    | none =>
      setLastError ERROR_NOT_ENOUGH_MEMORY
      pure none
    | some pData =>
      match ← getModuleInfoV3 symGetModuleInfo64 baseAddr with
      | some moduleInfo =>
        deallocate pData
        pure (some moduleInfo)
      | none =>
        Prog.modify fun w => { w with useV3Version := false }
        match ← external (symGetModuleInfo64 false baseAddr) with
        | some moduleInfo =>
          deallocate pData
          -- the smaller structure has no `LoadedPdbName`
          pure (some { moduleInfo with loadedPdbName := [] })
        | none =>
          deallocate pData
          setLastError ERROR_DLL_INIT_FAILED
          pure none

/-- `pSLM`, unless the names could not be copied; nothing for a module that is loaded already. -/
def symLoadModule (copied : Bool) (entry : ModuleEntry) : Member σ (Option Nat) :=
  if copied then do
    match ← external (env.symLoadModule64 entry) with
    | none => pure (some ERROR_SUCCESS)
    | some gle =>
      setLastError gle
      pure (if gle = ERROR_SUCCESS then none else some gle)
  else pure (some ERROR_NOT_ENOUGH_MEMORY)

/-- What `LoadModule` reports of the symbols of a module, and its file of symbols. -/
def symbolsOf : Option ModuleInfo → String × Text
  | none => ("-unknown-", [])
  | some m => ((symTypeName m.symType).getD "-unknown-",
    if m.loadedPdbName = [] then m.loadedImageName else m.loadedPdbName)

def loadModule (entry : ModuleEntry) : Member σ Nat := do
  let szImg ← allocate env
  let szMod ← allocate env
  match ← symLoadModule env (szImg.isSome && szMod.isSome) entry with
  | none =>
    deallocateIfAny szImg
    deallocateIfAny szMod
    pure ERROR_SUCCESS
  | some result =>
    reportModule szImg.isSome result
    deallocateIfAny szImg
    deallocateIfAny szMod
    pure result
where
  reportModule (report : Bool) (result : Nat) : Member σ PUnit :=
    if report then do
      let m ← getModuleInfo env entry.baseAddr
      log (.onLoadModule entry.img entry.mod entry.baseAddr entry.size result (symbolsOf m).1
        (symbolsOf m).2)
    else pure PUnit.unit

def loadEach (report : Bool) : List ModuleEntry → Member σ PUnit
  | [] => pure PUnit.unit
  | entry :: entries => do
    let dwRes ← loadModule env entry
    reportFailure dwRes
    loadEach report entries
where
  reportFailure (dwRes : Nat) : Member σ PUnit :=
    if report ∧ dwRes ≠ ERROR_SUCCESS then onDbgHelpErr "LoadModule" dwRes 0 else pure PUnit.unit

def getModuleListTH32 : Member σ Bool :=
  match env.toolhelp with
  | none => pure false
  | some createToolhelp32Snapshot => do
    match ← external createToolhelp32Snapshot with
    | none => pure false
    | some entries =>
      loadEach env false entries
      pure (!entries.isEmpty)

/-- `GetModuleListPSAPI` between its blocks: the number of the modules. -/
def loadProcessModules (enumProcessModules : σ → Option (Nat × (Nat → ModuleEntry)) × σ)
    (allocated : Bool) : Member σ Nat :=
  if allocated then do
    match ← external enumProcessModules with
    | none => pure 0
    | some (cbNeeded, entries) =>
      if TTBUFLEN < cbNeeded then pure 0
      else
        loadEach env true ((List.range (cbNeeded / env.sizeofHMODULE)).map entries)
        pure (cbNeeded / env.sizeofHMODULE)
  else pure 0

def getModuleListPSAPI : Member σ Bool :=
  match env.psapi with
  | none => pure false
  | some enumProcessModules => do
    let hMods ← allocate env
    let tt ← allocate env
    let tt2 ← allocate env
    let cnt ← loadProcessModules env enumProcessModules (hMods.isSome && tt.isSome && tt2.isSome)
    deallocateIfAny tt2
    deallocateIfAny tt
    deallocateIfAny hMods
    pure (cnt != 0)

def addLoadedModules : Member σ Bool := do
  if ← getModuleListTH32 env then pure true else getModuleListPSAPI env

/-! ### Frames -/

/-- `OnCallstackEntry` fills the entry that it is handed. -/
def CallstackEntry.filled (entry : CallstackEntry) : CallstackEntry :=
  let copy (szSrc : Text) : Text := myStrCpy STACKWALK_MAX_NAMELEN (some szSrc)
  let name := if entry.name = [] then copy "(function-name not available)".toList else entry.name
  let name := if entry.undName = [] then name else copy entry.undName
  let name := if entry.undFullName = [] then name else copy entry.undFullName
  if entry.lineFileName = [] then
    { entry with
      name := name
      lineFileName := copy "(filename not available)".toList
      moduleName := if entry.moduleName = [] then copy "(module-name not available)".toList
        else entry.moduleName }
  else { entry with name := name }

/-- What `OnCallstackEntry` prints of an entry. -/
def CallstackEntry.line (entry : CallstackEntry) : OutputLine :=
  if entry.lineFileName = [] then
    .withoutFile entry.offset entry.filled.moduleName entry.filled.lineFileName entry.filled.name
      entry.offsetFromSymbol
  else .withFile entry.lineFileName entry.lineNumber entry.filled.name entry.offsetFromSymbol

def onCallstackEntry (eType : CallstackEntryType) (entry : CallstackEntry) :
    Member σ CallstackEntry := do
  log (.onCallstackEntry eType entry)
  if eType ≠ .lastEntry ∧ entry.offset ≠ 0 then
    log (.onOutput entry.line)
    pure entry.filled
  else pure entry

/-- The entry at the start of a round; two fields keep what they had. -/
def CallstackEntry.reset (offset : Addr) (entry : CallstackEntry) : CallstackEntry :=
  { offset := offset, name := [], undName := [], undFullName := [], offsetFromSymbol := 0
    offsetFromLine := 0, lineNumber := 0, lineFileName := [], moduleName := []
    loadedImageName := [], symTypeString := entry.symTypeString, baseOfImage := entry.baseOfImage }

variable (this : Members)

/-- `if (m_verbose) this->OnDbgHelpErr(..)` -/
def verboseErr (szFuncName : String) (addr : Addr) : Member σ PUnit := fun w =>
  if this.verbose then onDbgHelpErr szFuncName w.lastError addr w else some (.ok PUnit.unit, w)

def describeSymbol (csEntry : CallstackEntry) : Member σ CallstackEntry := do
  match ← external (env.symGetSymFromAddr64 csEntry.offset) with
  | .ok pSym =>
    pure { csEntry with
      offsetFromSymbol := pSym.displacement
      name := myStrCpy STACKWALK_MAX_NAMELEN (some pSym.name)
      -- the library is told the size of the array
      undName := (env.unDecorateSymbolName true pSym.name).take (STACKWALK_MAX_NAMELEN - 1)
      undFullName := (env.unDecorateSymbolName false pSym.name).take (STACKWALK_MAX_NAMELEN - 1) }
  | .error gle =>
    setLastError gle
    verboseErr this "SymGetSymFromAddr64" csEntry.offset
    pure csEntry

def describeLine (csEntry : CallstackEntry) : Member σ CallstackEntry :=
  match env.symGetLineFromAddr64 with
  | none => pure csEntry
  | some symGetLineFromAddr64 => do
    match ← external (symGetLineFromAddr64 csEntry.offset) with
    | .ok line =>
      pure { csEntry with
        offsetFromLine := line.displacement
        lineNumber := line.lineNumber
        lineFileName := myStrCpy STACKWALK_MAX_NAMELEN line.fileName }
    | .error gle =>
      setLastError gle
      verboseErr this "SymGetLineFromAddr64" csEntry.offset
      pure csEntry

def describeModule (csEntry : CallstackEntry) : Member σ CallstackEntry := do
  match ← getModuleInfo env csEntry.offset with
  | some m =>
    pure { csEntry with
      symTypeString := symTypeName m.symType
      moduleName := myStrCpy STACKWALK_MAX_NAMELEN (some m.moduleName)
      baseOfImage := m.baseOfImage
      loadedImageName := myStrCpy STACKWALK_MAX_NAMELEN (some m.loadedImageName) }
  | none =>
    verboseErr this "SymGetModuleInfo64" csEntry.offset
    pure csEntry

/-- The part of a round for a program counter that seems valid. -/
def describe (csEntry : CallstackEntry) : Member σ CallstackEntry :=
  if csEntry.offset = 0 then pure csEntry
  else do
    let csEntry ← describeSymbol env this csEntry
    let csEntry ← describeLine env this csEntry
    describeModule env this csEntry

/-! ### The walk -/

structure Round where
  frameNum : Nat
  curRecursionCount : Nat
  csEntry : CallstackEntry
  bLastEntryCalled : Bool

def isEndless (curRecursionCount : Nat) : Bool :=
  0 < this.maxRecursionCount ∧ this.maxRecursionCount < curRecursionCount

/-- The end of a round: the entry is reported, and the last one twice. -/
def showFrame (s : StackFrame) (r : Round) : Member σ (Round ⊕ Round) := do
  let csEntry ← describe env this r.csEntry
  let csEntry ← onCallstackEntry (if r.frameNum = 0 then .firstEntry else .nextEntry) csEntry
  if s.addrReturn = 0 then
    let csEntry ← onCallstackEntry .lastEntry csEntry
    setLastError ERROR_SUCCESS
    pure (.inr { r with csEntry := csEntry, bLastEntryCalled := true })
  else
    pure (.inl { r with
      frameNum := r.frameNum + 1, csEntry := csEntry, bLastEntryCalled := false })

/-- A round of the loop; `inr` leaves it. -/
def walkFrame (r : Round) : Member σ (Round ⊕ Round) :=
  match env.stackWalk64 r.frameNum with
  | (false, s) => do
    onDbgHelpErr "StackWalk64" 0 s.addrPC
    pure (.inr r)
  | (true, s) =>
    let r := { r with csEntry := r.csEntry.reset s.addrPC }
    if s.addrPC = s.addrReturn then
      if isEndless this r.curRecursionCount then do
        onDbgHelpErr "StackWalk64-Endless-Callstack!" 0 s.addrPC
        pure (.inr r)
      else showFrame env this s { r with curRecursionCount := r.curRecursionCount + 1 }
    else showFrame env this s { r with curRecursionCount := 0 }

/-- From `pSym = Allocate(..)` to the label `cleanup`. -/
def walk (csEntry : CallstackEntry) (fuel : Nat) : Option Nat → Member σ Round
  | none => pure ⟨0, 0, csEntry, true⟩
  | some _ => Prog.loop (walkFrame env this) fuel ⟨0, 0, csEntry, true⟩

/-- `context == NULL`: another thread is suspended to get its context. -/
def getContext (contextIsNull : Bool) : Member σ Bool :=
  if contextIsNull ∧ !env.isCurrentThread then do
    suspendThread env
    let gotContext ← external env.getThreadContext
    if env.hThread && gotContext then pure true
    else
      resumeThread env
      pure false
  else pure true

/-- Up to the walk: whether there is one. -/
def prepare (contextIsNull : Bool) : Member σ Bool :=
  if this.initialized && this.lockerIsLocked then do
    let _ ← addLoadedModules env
    log .onAfterLoadModules
    if this.hDbhHelp then getContext env contextIsNull
    else
      setLastError ERROR_DLL_INIT_FAILED
      pure false
  else pure false

/-- The end of `ShowCallstack`, after `Deallocate(pSym)`. -/
def finish (contextIsNull : Bool) (r : Round) : Member σ Bool := do
  callLastEntry
  if contextIsNull then
    resumeThread env
    pure true
  else pure true
where
  callLastEntry : Member σ PUnit :=
    if r.bLastEntryCalled then pure PUnit.unit
    else do
      let _ ← onCallstackEntry .lastEntry r.csEntry
      pure PUnit.unit

/-- `csEntry` is what the variable holds before it is written. -/
def showCallstack (contextIsNull : Bool) (csEntry : CallstackEntry) (fuel : Nat) :
    Member σ Bool := do
  if ← prepare env this contextIsNull then
    let pSym ← allocate env
    let r ← walk env this csEntry fuel pSym
    deallocateIfAny pSym
    finish env contextIsNull r
  else pure false

end Code

end Garbage.StackWalker
