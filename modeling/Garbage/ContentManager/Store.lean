import Garbage.ContentManager.LazyConstructableStream
import Garbage.ContentManager.MakeDocument
import Garbage.Foundation.Script

/-!
# Documents and their contents

Calls of the members of a manager one after another, with what is in the files.
A document is used through the stream of `SharedReadDocument` or
`ExclusiveReadWriteDocument`, which `OpenDocumentStream` creates when it is needed: it
lets the content provider of the document write the file and opens it.  A use of a
document performs operations on its stream, up to the first exception, and then
disposes of it.

The provider of a lazy document is one that writes to a stream on the file, with a
getter for the length or without.  Each document has a provider of its own.
-/

namespace Garbage.ContentManager.DocumentStore

open Foundation (Prog SeekableStream SeekOrigin ByteStream)
open MakeDocument (World Environment Request Exn Content)

inductive Failure
  /-- of a member, a provider or the file system -/
  | call (e : Exn)
  /-- of a stream that is not used as it can be -/
  | stream
  deriving DecidableEq

/-! ### Streams on files -/

structure FileStream where
  writable : Bool
  memory : ByteStream

namespace FileStream

/-- The stream of a file with this content, as `File.Open` returns it. -/
def open_ (writable : Bool) (content : Content) : FileStream := ⟨writable, content, 0⟩

def onMemory {β : Type} (x : Prog ByteStream PUnit β) : Prog FileStream Failure β := fun s =>
  match x s.memory with
  | none => none
  | some (.ok b, memory) => some (.ok b, { s with memory })
  | some (.error _, memory) => some (.error .stream, { s with memory })

/-- An operation that a stream for reading refuses. -/
def ifWritable {β : Type} (x : Prog ByteStream PUnit β) : Prog FileStream Failure β := fun s =>
  if s.writable then onMemory x s else some (.error .stream, s)

instance : SeekableStream FileStream Failure where
  content s := s.memory.content
  position s := s.memory.position
  moveTo p s := { s with memory := { s.memory with position := p } }
  outOfRange := .stream
  read count := onMemory (ByteStream.read count)
  write bytes := ifWritable (ByteStream.write bytes)
  setLength value := ifWritable (ByteStream.setLength value)
  flush := pure PUnit.unit
  content_moveTo _ _ := rfl
  position_moveTo _ _ := rfl
  moveTo_moveTo _ _ _ := rfl
  moveTo_position _ := rfl
  flush_eq _ := rfl

end FileStream

/-! ### The manager -/

/-- What the provider of a lazy document writes, and whether it has a length getter. -/
structure Writer where
  content : Content
  knowsLength : Bool

/-- `made` is the number of arenas begun; `initialized` is `_callOnceFlag`. -/
structure Store (π : Type) where
  world : World π
  made : Nat
  writers : Nat → π → Writer
  initialized : Nat → π → Bool

/-- What the file system does when the stream of a document is created. -/
structure Choice where
  /-- the preparation of the content throws when this many bytes are written -/
  stopsAt : Option Nat
  /-- `File.Open` throws -/
  refuses : Bool

def Choice.Fails (choice : Choice) : Prop := choice.stopsAt ≠ none ∨ choice.refuses = true

/-- The public members; `use` is a whole use of a document. -/
inductive Event (π : Type)
  | beginArena
  | make (env : Environment π) (req : Request π) (writer : Writer)
  | use (choice : Choice) (arena : Nat) (path : π) (writable : Bool) (ops : List StreamOp)
  | documentName (arena : Nat) (path : π)
  | renameDocument (arena : Nat) (path : π) (name : String)
  /-- `Dispose` of an arena, where `File.Delete` throws for the files with `keeps` -/
  | dispose (arena : Nat) (keeps : π → Bool)
  /-- somebody else writes or deletes a file -/
  | outside (path : π) (content : Option Content)

inductive Answer (π : Type)
  | arena (arena : Nat)
  | document (path : π)
  | used (outputs : List Output) (thrown : Option Failure)
  | name (name : String)
  | done
  | threw (e : Exn)

section Members

variable {π : Type} [DecidableEq π]

/-- `f` with another value for the document of this arena and path. -/
def setAt {β : Type} (f : Nat → π → β) (arena : Nat) (path : π) (b : β) : Nat → π → β :=
  Function.update f arena (Function.update (f arena) path b)

theorem setAt_apply {β : Type} (f : Nat → π → β) (arena : Nat) (path : π) (b : β) (a : Nat)
    (p : π) : setAt f arena path b a p = if a = arena ∧ p = path then b else f a p := by
  unfold setAt
  by_cases ha : a = arena
  · subst ha
    by_cases hp : p = path <;> simp [hp]
  · simp [ha]

@[simp] theorem setAt_self {β : Type} (f : Nat → π → β) (arena : Nat) (path : π) (b : β) :
    setAt f arena path b arena path = b := by simp [setAt_apply]

theorem setAt_of_ne {β : Type} (f : Nat → π → β) {arena a : Nat} {path p : π} (b : β)
    (h : p ≠ path) : setAt f arena path b a p = f a p := by simp [setAt_apply, h]

def Store.setFile (s : Store π) (path : π) (content : Option Content) : Store π :=
  { s with world := { s.world with files := Function.update s.world.files path content } }

/-- The file after `new` has been written over it from the start. -/
def overwritten (new old : Content) : Content := new ++ old.drop new.length

/-- Write `content` to the file, all of it or the first bytes. -/
def writeUpTo (stopsAt : Option Nat) (path : π) (content : Content)
    (after : Content → Content) : Prog (Store π) Failure PUnit :=
  match stopsAt with
  | none => Prog.modify fun s => s.setFile path (some (after content))
  | some n => do
    Prog.modify fun s => s.setFile path (some (after (content.take n)))
    Prog.raise (.call .io)

/-- The content of a file, if it is there. -/
def readFile (path : π) : Prog (Store π) Failure Content := do
  let s ← Prog.get
  match s.world.files path with
  | none => Prog.raise (.call .io)
  | some content => pure content

/-- `CallOnceContentPreparation`: a stream on the file is written, or `File.Copy`. -/
def callOnceContentPreparation (stopsAt : Option Nat) (arena : Nat) (path : π) :
    ContentProvider π → Prog (Store π) Failure PUnit
  | .custom => do
    let old ← readFile path
    let s ← Prog.get
    writeUpTo stopsAt path (s.writers arena path).content fun new => overwritten new old
  | .copy filePath => do
    let source ← readFile filePath
    if filePath = path then Prog.raise (.call .io)
    else writeUpTo stopsAt path source id

def contentPreparation (stopsAt : Option Nat) (arena : Nat) (path : π)
    (provider : ContentProvider π) : Prog (Store π) Failure PUnit := do
  let s ← Prog.get
  if s.initialized arena path then pure PUnit.unit
  else do
    callOnceContentPreparation stopsAt arena path provider
    Prog.modify fun s =>
      { s with initialized := setAt s.initialized arena path true }

/-- `OpenDocumentStream` of a document with this provider. -/
def openDocumentStream (choice : Choice) (arena : Nat) (path : π)
    (provider : Option (ContentProvider π)) (writable : Bool) :
    Prog (Store π) Failure FileStream := do
  match provider with
  | none => pure PUnit.unit
  | some provider => contentPreparation choice.stopsAt arena path provider
  if choice.refuses then Prog.raise (.call .io)
  else do
    let content ← readFile path
    pure (FileStream.open_ writable content)

def optimizedContentLength (s : Store π) (arena : Nat) (path : π) :
    Option (ContentProvider π) → Except Failure (Option Int)
  | none => .ok none
  | some provider =>
    if s.initialized arena path then .ok none
    else
      match provider with
      | .custom =>
        let writer := s.writers arena path
        .ok (if writer.knowsLength then some writer.content.length else none)
      | .copy filePath =>
        match s.world.files filePath with
        | none => .error (.call .io)
        | some content => .ok (some content.length)

omit [DecidableEq π] in
def getDocumentInfo [ToString π] (w : World π) (arena : Nat) (path : π) :
    Except Exn (DocumentInfo π) :=
  match w.arenas arena with
  | none => .error (.argument ("Working with disposed arena " ++ toString arena ++
      " for document id '" ++ toString path ++ "'"))
  | some arenaInfo =>
    match arenaInfo path with
    | none => .error (.argument ("Not found document id '" ++ toString path ++ "' on arena '" ++
        toString arena ++ "'"))
    | some info => .ok info

end Members

/-! ### The use of a document -/

/-- The operation asks for the length if there is no inner stream. -/
def asksLength : StreamOp → Bool
  | .length | .seek _ .end_ => true
  | _ => false

/-- The stream has never been asked for its inner stream. -/
def isNew (this : LazyConstructableStream FileStream) : Bool :=
  match this.stream with
  | .notCreated => true
  | _ => false

/-- The manager and a stream that `OpenLazyDocument` has made. -/
structure Session (π : Type) where
  store : Store π
  stream : LazyConstructableStream FileStream

section Use

variable {π : Type} [DecidableEq π] (choice : Choice) (arena : Nat) (path : π)
  (provider : Option (ContentProvider π)) (writable : Bool)

/-- What the size getter returns if the operation calls it. -/
def Session.optimizedSize (c : Session π) (op : StreamOp) : Except Failure (Option Int) :=
  if asksLength op && isNew c.stream then optimizedContentLength c.store arena path provider
  else .ok none

omit [DecidableEq π] in
/-- The session after an operation that left `stream`.  If the operation has created the inner
stream, that is what `OpenDocumentStream` returned, or the exception that it threw. -/
def Session.after (c : Session π) (opened : Except Failure FileStream × Store π)
    (result : Except Failure Output) (stream : LazyConstructableStream FileStream) :
    Except Failure Output × Session π :=
  if isNew c.stream && !isNew stream then
    match opened with
    | (.ok _, store) => (result, ⟨store, stream⟩)
    | (.error e, store) => (.error e, ⟨store, { stream with stream := .faulted }⟩)
  else (result, ⟨c.store, stream⟩)

/-- An operation on the stream of a document. -/
def streamStep (op : StreamOp) : Prog (Session π) Failure Output := fun c =>
  match c.optimizedSize arena path provider op with
  | .error e => some (.error e, c)
  | .ok size =>
    match openDocumentStream choice arena path provider writable c.store with
    | none => none
    | some opened =>
      match op.execLazy (opened.1.toOption.getD (FileStream.open_ writable [])) size c.stream with
      | none => none
      | some (result, stream) => some (c.after opened result stream)

/-- `Dispose` of the stream: what was written is in the file. -/
def Session.close (c : Session π) : Store π :=
  match c.stream.permissiveStream with
  | some file => if writable then c.store.setFile path (some file.memory.content) else c.store
  | none => c.store

end Use

/-! ### The calls -/

section Calls

variable {π : Type} [DecidableEq π] [ToString π] (host : Host π)

/-- A new provider has written nothing yet. -/
def Store.registered (s : Store π) (w : World π) (arena : Option Nat) (path : π) (writer : Writer) :
    Store π :=
  match arena with
  | none => { s with world := w }
  | some a =>
    { s with
      world := w
      writers := setAt s.writers a path writer
      initialized := setAt s.initialized a path false }

def requestArena : Request π → Option Nat
  | .lazy arena _ _ | .path arena _ _ _ _ | .stream arena _ => arena

/-- The dictionary of the arena is another one. -/
def Store.setArena (s : Store π) (arena : Nat) (arenaInfo : π → Option (DocumentInfo π)) :
    Store π :=
  { s with world := { s.world with arenas := Function.update s.world.arenas arena arenaInfo } }

/-- `OnCloseArena`: the files of the documents that are to be deleted go. -/
def Store.closeArena (s : Store π) (arena : Nat) (arenaInfo : π → Option (DocumentInfo π))
    (keeps : π → Bool) : Store π :=
  { s with
    world :=
      { files := fun p =>
          if (arenaInfo p).any (·.deletes) && !keeps p then none else s.world.files p
        arenas := Function.update s.world.arenas arena none } }

/-- One call, or what somebody else does; `none` where a loop would not end. -/
def Store.call (s : Store π) : Event π → Option (Answer π × Store π)
  | .beginArena =>
    some (.arena s.made, { s.setArena s.made fun _ => none with made := s.made + 1 })
  | .make env req writer =>
    match MakeDocument.exec host env req s.world with
    | none => none
    | some (.error e, w) => some (.threw e, { s with world := w })
    | some (.ok path, w) =>
      some (.document path, s.registered w (requestArena req) path writer)
  | .use choice arena path writable ops =>
    match getDocumentInfo s.world arena path with
    | .error e => some (.threw e, s)
    | .ok info =>
      match Prog.script (streamStep choice arena path info.contentProvider writable) ops
          ⟨s, .new⟩ with
      | none => none
      | some r => some (.used r.outputs r.thrown, r.state.close path writable)
  | .documentName arena path =>
    match getDocumentInfo s.world arena path with
    | .error e => some (.threw e, s)
    | .ok info => some (.name info.name, s)
  | .renameDocument arena path name =>
    match getDocumentInfo s.world arena path with
    | .error e => some (.threw e, s)
    | .ok info =>
      let arenaInfo := (s.world.arenas arena).getD fun _ => none
      some (.done, s.setArena arena (Function.update arenaInfo path (some { info with name })))
  | .dispose arena keeps =>
    -- `_endArena` is null exactly when the arena is gone
    match s.world.arenas arena with
    | none => some (.done, s)
    | some arenaInfo => some (.done, s.closeArena arena arenaInfo keeps)
  | .outside path content => some (.done, s.setFile path content)

def Store.make (files : π → Option Content) : Store π where
  world := ⟨files, fun _ => none⟩
  made := 0
  writers _ _ := ⟨[], false⟩
  initialized _ _ := false

end Calls

end Garbage.ContentManager.DocumentStore
