import Garbage.Foundation.Machine
import Garbage.Foundation.OwnedFiles

/-!
# The content manager

`ContentManager` keeps documents in files and groups them in arenas.  `Arenas`
maps each arena to a dictionary of its documents, and `Dispose` of an arena
removes it from `Arenas`, takes a snapshot of its dictionary and deletes the
files of the documents there, one after another.  `MakeLazyDocument` and
`MakeDocument` create a temporary file or use the file of the caller, then look
the arena up and add the document to its dictionary.  A document with a content
provider is written when its stream is opened.

Each operation on a dictionary and each call of the file system is a step of its
own.  Any number of threads call members for any arenas; the arenas have numbers
instead of GUIDs.  `OwnedFiles` says which arenas own a file: the one for which
the manager created it, and those that took it over with `deleteSourceFile`.
-/

namespace Garbage.ContentManager

open Foundation (Machine OwnedFiles)

inductive FileUsingMode
  | autoDetect
  | useSourceFile
  | copySourceFile
  deriving DecidableEq

/-- What the host knows of a path: `PathIsNetworkPath` and `Path.GetFileName`. -/
structure Host (π : Type) where
  pathIsNetworkPath : π → Bool
  getFileName : π → String

/-- The provider of the caller, or the one of `MakeDocument` that copies a file. -/
inductive ContentProvider (π : Type)
  | custom
  | copy (filePath : π)
  deriving DecidableEq

/-- `deletes` says that `OnCloseArena` is `OnCloseArenaDeleteDocument`, and not null. -/
structure DocumentInfo (π : Type) where
  name : String
  deletes : Bool
  contentProvider : Option (ContentProvider π)
  deriving DecidableEq

/-- The public members; an open is the first use of the stream of a document. -/
inductive Member (π : Type)
  | beginArena
  | makeLazyDocument (arena : Nat) (name : String)
  | makeDocument (arena : Nat) (filePath : π) (mode : FileUsingMode) (deleteSourceFile : Bool)
      (fileName : Option String)
  | makeStreamDocument (arena : Nat) (name : String)
  | openDocumentStream (arena : Nat) (path : π)
  | dispose (arena : Nat)

/-- What a temporary file is made for. -/
inductive Purpose (π : Type)
  | lazy
  | move (filePath : π)
  | copy (filePath : π)
  | stream

inductive Error
  /-- an argument check, or an arena or document that is not there -/
  | argument
  | duplicated
  /-- the file system or a stream of the caller -/
  | io

/-- How the last call of a thread ended. -/
inductive Result (π : Type)
  | arena (arena : Nat)
  | document (arena : Nat) (path : π)
  | done
  | threw (error : Error)

inductive Pc (π : Type)
  | outside
  | beginArena
  /-- in `MakeDocument`, at the checks of its arguments -/
  | checkFile (arena : Nat) (filePath : π) (mode : FileUsingMode) (deleteSourceFile : Bool)
      (fileName : Option String)
  /-- at `Path.GetTempFileName()` -/
  | newTempFile (arena : Nat) (purpose : Purpose π) (name : String)
  /-- at `File.Move`, or at `File.Open` and `CopyTo` -/
  | fill (arena : Nat) (path : π) (purpose : Purpose π) (name : String)
  /-- at `GetArenaInfo`; `temp` says that the file is a temporary one -/
  | getArenaInfo (arena : Nat) (path : π) (info : DocumentInfo π) (temp : Bool)
  /-- at `arenaInfo.TryAdd` -/
  | tryAdd (arena : Nat) (path : π) (info : DocumentInfo π) (temp : Bool)
  /-- in `OpenDocumentStream`, at `GetArenaInfo` -/
  | findArena (arena : Nat) (path : π)
  | findDocument (arena : Nat) (path : π)
  /-- at `if (_callOnceFlag)`, or at `ContentPreparation` of the caller -/
  | prepare (arena : Nat) (path : π) (provider : ContentProvider π)
  /-- at `CallOnceContentPreparation` -/
  | prepareOnce (arena : Nat) (path : π) (filePath : π)
  /-- at `File.Open` -/
  | openFile (arena : Nat) (path : π)
  /-- in `Dispose` of the arena, at `var endArena = _endArena` -/
  | readEndArena (arena : Nat)
  | clearEndArena (arena : Nat) (endArena : Bool)
  /-- in `OnCloseArena`, at `Arenas.TryRemove` -/
  | tryRemove (arena : Nat)
  /-- at `arenaInfo.ToList()` -/
  | toList (arena : Nat)
  /-- in the loop over the snapshot -/
  | closing (arena : Nat) (rest : List (π × DocumentInfo π))

/-- The arena that the call of the thread is about. -/
def Pc.arena {π : Type} : Pc π → Option Nat
  | .checkFile a _ _ _ _ | .newTempFile a _ _ | .fill a _ _ _ | .getArenaInfo a _ _ _
  | .tryAdd a _ _ _ | .findArena a _ | .findDocument a _ | .prepare a _ _ | .prepareOnce a _ _
  | .openFile a _ | .readEndArena a | .clearEndArena a _ | .tryRemove a | .toList a
  | .closing a _ => some a
  | .outside | .beginArena => none

/-- The files, the arenas begun so far, those in `Arenas` and their dictionaries,
and the threads.  `prepared` are the flags of the copying providers.  `strayed`
says that the closing of an arena has deleted a file that nobody owned. -/
structure State (τ π : Type) where
  files : OwnedFiles π Nat
  made : Nat
  arenas : Nat → Bool
  infos : Nat → List (π × DocumentInfo π)
  endArena : Nat → Bool
  prepared : Nat → π → Bool
  pc : τ → Pc π
  results : τ → Option (Result π)
  strayed : Bool

/-- What the environment decides at a step: the name of a temporary file, whether
the call of the file system or of the caller's code throws, and whether the
provider of the caller creates its file. -/
structure Choice (π : Type) where
  temp : π
  fails : Bool
  creates : Bool

inductive Action (τ π : Type)
  | call (t : τ) (m : Member π)
  | step (t : τ) (choice : Choice π)

section Steps

variable {τ π : Type}

/-- Before the first call, when the manager owns none of the files that are there. -/
def State.make (present : π → Bool) : State τ π where
  files p := if present p then some [] else none
  made := 0
  arenas _ := false
  infos _ := []
  endArena _ := false
  prepared _ _ := false
  pc _ := .outside
  results _ := none
  strayed := false

variable [DecidableEq τ] [DecidableEq π]

def State.goto (s : State τ π) (t : τ) (pc : Pc π) : State τ π :=
  { s with pc := Function.update s.pc t pc }

/-- The call of the thread `t` ends. -/
def State.leave (s : State τ π) (t : τ) (result : Result π) : State τ π :=
  { s with
    pc := Function.update s.pc t .outside
    results := Function.update s.results t (some result) }

/-- `MakeDocument` with a path, up to its first call that changes a file. -/
def checkFile (host : Host π) (s : State τ π) (t : τ) (a : Nat) (filePath : π)
    (mode : FileUsingMode) (deleteSourceFile : Bool) (fileName : Option String) : State τ π :=
  let name := fileName.getD (host.getFileName filePath)
  if (s.files filePath).isNone then s.leave t (.threw .argument)
  else if name.toList.all Char.isWhitespace then s.leave t (.threw .argument)
  else
    let mode :=
      if mode = .autoDetect then
        if host.pathIsNetworkPath filePath then .copySourceFile else .useSourceFile
      else mode
    match mode with
    | .copySourceFile =>
      s.goto t (.newTempFile a (if deleteSourceFile then .move filePath else .copy filePath) name)
    | _ => s.goto t (.getArenaInfo a filePath ⟨name, deleteSourceFile, none⟩ false)

/-- The document for which a temporary file is made. -/
def Purpose.info (name : String) : Purpose π → DocumentInfo π
  | .lazy => ⟨name, true, some .custom⟩
  | .copy filePath => ⟨name, true, some (.copy filePath)⟩
  | .move _ | .stream => ⟨name, true, none⟩

/-- Where a member goes on once its temporary file exists. -/
def Purpose.afterTemp (a : Nat) (path : π) (name : String) : Purpose π → Pc π
  | .move filePath => .fill a path (.move filePath) name
  | .stream => .fill a path .stream name
  | purpose => .getArenaInfo a path (purpose.info name) true

/-- `arenaInfo.TryAdd`.  A source file that is to be deleted is taken over. -/
def tryAdd (s : State τ π) (t : τ) (a : Nat) (path : π) (info : DocumentInfo π) (temp : Bool) :
    State τ π :=
  match (s.infos a).lookup path with
  | some _ => s.leave t (.threw .duplicated)
  | none =>
    { s with
      infos := Function.update s.infos a (s.infos a ++ [(path, info)])
      files := if info.deletes ∧ ¬ temp then s.files.takeOver path a else s.files }.leave t
      (.document a path)

/-- `OnCloseArena` of one document of the snapshot. -/
def closeDocument (s : State τ π) (path : π) (info : DocumentInfo π) : State τ π :=
  if info.deletes then
    { s with
      files := s.files.delete path
      strayed := s.strayed || s.files path == some [] }
  else s

/-- The next step of the thread `t`. -/
def threadStep (host : Host π) (s : State τ π) (t : τ) (choice : Choice π) :
    Option (State τ π) :=
  match s.pc t with
  | .outside => none
  | .beginArena => some ({ s with
      made := s.made + 1
      arenas := Function.update s.arenas s.made true
      infos := Function.update s.infos s.made []
      endArena := Function.update s.endArena s.made true }.leave t (.arena s.made))
  | .checkFile a filePath mode deleteSourceFile fileName =>
    some (checkFile host s t a filePath mode deleteSourceFile fileName)
  | .newTempFile a purpose name =>
    if choice.fails then some (s.leave t (.threw .io))
    else if (s.files choice.temp).isSome then none
    else
      some ({ s with
        files := s.files.create choice.temp a }.goto t (purpose.afterTemp a choice.temp name))
  | .fill a path purpose name =>
    let next := Pc.getArenaInfo a path (purpose.info name) true
    if choice.fails then some (s.leave t (.threw .io))
    else
      match purpose with
      | .move filePath =>
        if (s.files filePath).isNone then some (s.leave t (.threw .io))
        else some ({ s with files := s.files.move filePath path a }.goto t next)
      | _ => some (s.goto t next)
  | .getArenaInfo a path info temp =>
    if s.arenas a then some (s.goto t (.tryAdd a path info temp))
    else some (s.leave t (.threw .argument))
  | .tryAdd a path info temp => some (tryAdd s t a path info temp)
  | .findArena a path =>
    if s.arenas a then some (s.goto t (.findDocument a path))
    else some (s.leave t (.threw .argument))
  | .findDocument a path =>
    match (s.infos a).lookup path with
    | none => some (s.leave t (.threw .argument))
    | some info =>
      match info.contentProvider with
      | none => some (s.goto t (.openFile a path))
      | some provider => some (s.goto t (.prepare a path provider))
  | .prepare a path .custom =>
    let s := if choice.creates then { s with files := s.files.create path a } else s
    if choice.fails then some (s.leave t (.threw .io)) else some (s.goto t (.openFile a path))
  | .prepare a path (.copy filePath) =>
    some (s.goto t (if s.prepared a path then .openFile a path else .prepareOnce a path filePath))
  | .prepareOnce a path filePath =>
    if choice.fails ∨ (s.files filePath).isNone ∨ filePath = path then
      some (s.leave t (.threw .io))
    else
      some ({ s with
        files := s.files.create path a
        prepared := Function.update s.prepared a (Function.update (s.prepared a) path true) }.goto t
        (.openFile a path))
  | .openFile _ path =>
    if choice.fails ∨ (s.files path).isNone then some (s.leave t (.threw .io))
    else some (s.leave t .done)
  | .readEndArena a => some (s.goto t (.clearEndArena a (s.endArena a)))
  | .clearEndArena a endArena =>
    let s := { s with endArena := Function.update s.endArena a false }
    some (if endArena then s.goto t (.tryRemove a) else s.leave t .done)
  | .tryRemove a =>
    if s.arenas a then
      some ({ s with arenas := Function.update s.arenas a false }.goto t (.toList a))
    else some (s.leave t (.threw .argument))
  | .toList a => some (s.goto t (.closing a (s.infos a)))
  | .closing _ [] => some (s.leave t .done)
  | .closing a ((path, info) :: rest) =>
    some ((closeDocument s path info).goto t (.closing a rest))

def Member.start : Member π → Pc π
  | .beginArena => .beginArena
  | .makeLazyDocument a name => .newTempFile a .lazy name
  | .makeDocument a filePath mode deleteSourceFile fileName =>
    .checkFile a filePath mode deleteSourceFile fileName
  | .makeStreamDocument a name => .newTempFile a .stream name
  | .openDocumentStream a path => .findArena a path
  | .dispose a => .readEndArena a

/-- A thread calls a member, for an arena that has been begun, or goes on. -/
def next (host : Host π) (s : State τ π) : Action τ π → Option (State τ π)
  | .call t m =>
    match s.pc t with
    | .outside =>
      if ∀ a ∈ m.start.arena, a < s.made then some (s.goto t m.start) else none
    | _ => none
  | .step t choice => threadStep host s t choice

end Steps

/-- Any number of threads around a content manager. -/
def machine (τ π : Type) [DecidableEq τ] [DecidableEq π] (host : Host π) :
    Machine (State τ π) (Action τ π) where
  init s := ∃ present, s = State.make present
  next := next host

end Garbage.ContentManager
