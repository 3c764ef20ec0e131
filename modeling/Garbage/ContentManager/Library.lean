import Garbage.ContentManager.Contents

/-!
# The manager as a library

A `Library` has the documents that have a file of their own: their names and contents.
It knows nothing of files, providers and streams.  A document is in it from the moment
`MakeDocument` or `MakeLazyDocument` returns, with the content that it was made from,
even if that is copied or written later; what is done to its stream is done to that
content.

This needs the source of a copy to stay as it is until the copy is made, and that nobody
else writes to the files of the manager.  No stream is used with a seek that would end
before the start, or with one from the end that does not go to the end: the lazy stream
takes such an offset with the other sign (`Proper`).  Then in every run **the manager
answers as the library does** (`answers_as_library`).
-/

namespace Garbage.ContentManager.DocumentStore

open Foundation (Machine Prog SeekableStream SeekOrigin ByteStream)
open Foundation.Prog
open MakeDocument (World Environment Request Exn Content)

structure Entry where
  name : String
  content : Content

abbrev Library (π : Type) : Type := Nat → π → Option Entry

variable {π : Type}

/-- The source file of a request. -/
def sourceOf : Request π → Option π
  | .path _ filePath _ _ _ => filePath
  | _ => none

variable [DecidableEq π] [ToString π]

section Make

variable (host : Host π)

omit [DecidableEq π] [ToString π] in
/-- The document that the library gets, if the request asks for one with a file of its own. -/
def entryOf (files : π → Option Content) (writer : Writer) : Request π → Option Entry
  | .lazy _ name _ => some ⟨name, writer.content⟩
  | .path _ filePath mode _ fileName => do
    let source ← filePath
    let content ← files source
    if MakeDocument.resolveMode host source mode = .named .copySourceFile then
      some ⟨fileName.getD (host.getFileName source), content⟩
    else none
  | .stream _ document => do
    let (name, stream) ← document
    let content ← stream
    some ⟨name, content⟩

/-- The request moves the file away. -/
def Moves (q : π) : Request π → Prop
  | .path _ filePath mode deleteSourceFile _ => filePath = some q ∧ deleteSourceFile = true ∧
      MakeDocument.resolveMode host q mode = .named .copySourceFile
  | _ => False

/-- The files that were there are as before, except one that the request moves away. -/
def Frame (req : Request π) (w w' : World π) : Prop :=
  ∀ q, w.files q ≠ none → ¬ Moves host q req → w'.files q = w.files q

end Make

/-- What stands behind a document that has just been made. -/
inductive Body (w : World π) (writer : Writer) (p : π) :
    Option (ContentProvider π) → Content → Prop
  | written {content : Content} (hfile : w.files p = some content) : Body w writer p none content
  | custom (hfile : w.files p = some []) : Body w writer p (some .custom) writer.content
  | copy {src : π} {content : Content} (hfile : w.files p = some []) (hne : src ≠ p)
      (hsource : w.files src = some content) : Body w writer p (some (.copy src)) content

/-- The document is in the dictionary of its arena, where it was not before. -/
structure Registers (arena : Option Nat) (p : π) (info : DocumentInfo π) (a : Nat)
    (arenaInfo : π → Option (DocumentInfo π)) (w w' : World π) : Prop where
  arena : arena = some a
  before : w.arenas a = some arenaInfo
  free : arenaInfo p = none
  after : w'.arenas =
    Function.update w.arenas a (some (Function.update arenaInfo p (some info)))

/-- How a request can succeed: with a document in a temporary file, or in the file of the
caller. -/
inductive Outcome (host : Host π) (env : Environment π) (w : World π) (writer : Writer)
    (req : Request π) (p : π) (w' : World π) : Prop
  | own {a : Nat} {arenaInfo : π → Option (DocumentInfo π)} {info : DocumentInfo π} {entry : Entry}
      (hp : env.tempName w.files = some p)
      (hreg : Registers (requestArena req) p info a arenaInfo w w')
      (hentry : entryOf host w.files writer req = some entry) (hname : info.name = entry.name)
      (hbody : Body w' writer p info.contentProvider entry.content)
      (hcopy : ∀ src, info.contentProvider = some (.copy src) → sourceOf req = some src)
      (hframe : Frame host req w w')
  | foreign {a : Nat} {arenaInfo : π → Option (DocumentInfo π)} {info : DocumentInfo π}
      (hp : sourceOf req = some p)
      (hreg : Registers (requestArena req) p info a arenaInfo w w')
      (hentry : entryOf host w.files writer req = none) (hinfo : info.contentProvider = none)
      (hfiles : w'.files = w.files)

section Requests

variable {host : Host π} {env : Environment π} {w : World π} {writer : Writer}

theorem wp_register {arena : Option Nat} {p : π} {info : DocumentInfo π} :
    wp (MakeDocument.addDocumentInfo arena p info)
      (fun _ w' => w'.files = w.files ∧ ∃ a arenaInfo, Registers arena p info a arenaInfo w w')
      (fun _ w' => w' = w) w := by
  simp only [MakeDocument.addDocumentInfo, MakeDocument.getArenaInfo, wp_bind,
    MakeDocument.wp_orThrow, wp_get, wp_pure, MakeDocument.wp_throwIf, wp_modify]
  refine ⟨fun _ => trivial, fun a ha => ⟨fun _ => trivial, fun arenaInfo hinfo =>
    ⟨fun _ => trivial, fun hfree => ⟨trivial, a, arenaInfo, ha, hinfo, ?_, rfl⟩⟩⟩⟩
  simpa using hfree

omit [ToString π] in
theorem wp_getTempFileName {Q : π → World π → Prop} {E : Exn → World π → Prop} :
    wp (MakeDocument.getTempFileName env) Q E w ↔ (env.tempName w.files = none → E .io w) ∧
      ∀ p, env.tempName w.files = some p → Q p (w.withFile p []) := by
  simp only [MakeDocument.getTempFileName, wp_bind, wp_get, MakeDocument.wp_orThrow,
    MakeDocument.writeFile, wp_modify, wp_pure]
  rfl

omit [ToString π] in
theorem wp_fill {p : π} {stream : Content} {Q : PUnit → World π → Prop}
    {E : Exn → World π → Prop} : wp (MakeDocument.fill env p stream) Q E w ↔
      (env.openThrows = true → E .io w) ∧ (env.openThrows = false →
        (∀ left, env.copyThrows = some left → E .io (w.withFile p left)) ∧
          (env.copyThrows = none → Q PUnit.unit (w.withFile p stream))) := by
  unfold MakeDocument.fill
  rw [wp_bind, MakeDocument.wp_throwIf]
  cases env.copyThrows <;> simp [MakeDocument.writeFile, MakeDocument.World.withFile]

omit [ToString π] in
theorem wp_fileMove {source p : π} {Q : PUnit → World π → Prop} {E : Exn → World π → Prop} :
    wp (MakeDocument.fileMove env source p) Q E w ↔
      (∀ left, env.moveThrows = some left → E .io (w.withFile p left)) ∧
        (env.moveThrows = none → (w.files source = none → E .io w) ∧
          ∀ content, w.files source = some content → Q PUnit.unit { w with
            files := Function.update (Function.update w.files p (some content)) source none }) := by
  unfold MakeDocument.fileMove
  cases env.moveThrows <;>
    simp [MakeDocument.writeFile, MakeDocument.deleteFile, MakeDocument.World.withFile]

def Ends (host : Host π) (env : Environment π) (writer : Writer) (req : Request π) (w : World π) :
    Prop :=
  wp (MakeDocument.exec host env req) (fun p w' => Outcome host env w writer req p w')
    (fun _ w' => w'.arenas = w.arenas ∧ Frame host req w w') w

omit [DecidableEq π] [ToString π] in
theorem Frame.refl (req : Request π) (w : World π) : Frame host req w w := fun _ _ _ => rfl

omit [DecidableEq π] [ToString π] in
/-- Nothing was in the file that has changed. -/
theorem frame_of_ne {req : Request π} {p : π} {w' : World π} (hp : w.files p = none)
    (h : ∀ q, q ≠ p → w'.files q = w.files q) : Frame host req w w' :=
  fun q hq _ => h q fun heq => hq (heq ▸ hp)

omit [ToString π] in
theorem files_withFile (p : π) (content : Content) {q : π} (hq : q ≠ p) :
    (w.withFile p content).files q = w.files q := Function.update_of_ne hq _ _

omit [ToString π] in
@[simp] theorem files_withFile_self (p : π) (content : Content) :
    (w.withFile p content).files p = some content := Function.update_self ..

omit [DecidableEq π] [ToString π] in
theorem Body.congr {w' : World π} {p : π} {provider : Option (ContentProvider π)}
    {content : Content} (h : Body w writer p provider content) (hfiles : w'.files = w.files) :
    Body w' writer p provider content := by
  cases h with
  | written hfile => exact .written (hfiles ▸ hfile)
  | custom hfile => exact .custom (hfiles ▸ hfile)
  | copy hfile hne hsource => exact .copy (hfiles ▸ hfile) hne (hfiles ▸ hsource)

/-- The end of a request whose temporary file is ready. -/
theorem wp_register_own (req : Request π) {p : π} {info : DocumentInfo π} {entry : Entry}
    {w₁ : World π} (hp : env.tempName w.files = some p) (harenas : w₁.arenas = w.arenas)
    (hframe : Frame host req w w₁) (hentry : entryOf host w.files writer req = some entry)
    (hname : info.name = entry.name)
    (hbody : Body w₁ writer p info.contentProvider entry.content)
    (hcopy : ∀ src, info.contentProvider = some (.copy src) → sourceOf req = some src) :
    wp (MakeDocument.addDocumentInfo (requestArena req) p info)
      (fun _ w' => Outcome host env w writer req p w')
      (fun _ w' => w'.arenas = w.arenas ∧ Frame host req w w') w₁ := by
  refine wp_mono (fun _ w' h => ?_) (fun _ w' h => ?_) wp_register
  · obtain ⟨hfiles, a, arenaInfo, hreg⟩ := h
    refine .own hp ⟨hreg.arena, harenas ▸ hreg.before, hreg.free, harenas ▸ hreg.after⟩ hentry
      hname (hbody.congr hfiles) hcopy ?_
    exact fun q hq hm => (congrFun hfiles q).trans (hframe q hq hm)
  · rw [h]
    exact ⟨harenas, hframe⟩

theorem ends_lazy (arena : Option Nat) (name : String) (contentProvider : Bool) :
    Ends host env writer (.lazy arena name contentProvider) w := by
  simp only [Ends, MakeDocument.exec, MakeDocument.makeLazyDocument, wp_bind,
    MakeDocument.wp_throwIf, wp_getTempFileName, wp_pure]
  refine ⟨fun _ => ⟨trivial, .refl _ _⟩, fun _ => ⟨fun _ => ⟨trivial, .refl _ _⟩, fun p hp => ?_⟩⟩
  have hfree := env.tempName_fresh _ _ hp
  have hframe : Frame host (.lazy arena name contentProvider) w (w.withFile p []) :=
    frame_of_ne hfree fun q hq => files_withFile p [] hq
  exact wp_register_own (.lazy arena name contentProvider) hp rfl hframe rfl rfl
    (.custom (files_withFile_self p [])) fun _ h => by cases h

theorem ends_stream (arena : Option Nat) (document : Option (String × Option Content)) :
    Ends host env writer (.stream arena document) w := by
  simp only [Ends, MakeDocument.exec, MakeDocument.makeStreamDocument, wp_bind,
    MakeDocument.wp_orThrow, wp_getTempFileName, wp_fill, wp_pure]
  refine ⟨fun _ => ⟨trivial, .refl _ _⟩, fun document hdoc => ⟨fun _ => ⟨trivial, .refl _ _⟩,
    fun stream hstream => ⟨fun _ => ⟨trivial, .refl _ _⟩, fun p hp => ?_⟩⟩⟩
  obtain ⟨name, content⟩ := document
  have hfree := env.tempName_fresh _ _ hp
  have hframe : ∀ content, Frame host (.stream arena document) w
      ((w.withFile p []).withFile p content) := fun content =>
    frame_of_ne hfree fun q hq => (files_withFile p content hq).trans (files_withFile p [] hq)
  refine ⟨fun _ => ⟨rfl, frame_of_ne hfree fun q hq => files_withFile p [] hq⟩,
    fun _ => ⟨fun left _ => ⟨rfl, hframe left⟩, fun _ => ?_⟩⟩
  have hentry : entryOf host w.files writer (.stream arena document) = some ⟨name, stream⟩ := by
    simp [entryOf, hdoc, show content = some stream from hstream]
  exact wp_register_own (.stream arena document) hp rfl (hframe stream) hentry rfl
    (.written (files_withFile_self p stream)) fun _ h => by cases h

/-- The `switch` of `MakeDocument` and what comes behind it. -/
theorem ends_choose {arena : Option Nat} {source : π} {mode : MakeDocument.Mode}
    {deleteSourceFile : Bool} {fileName : Option String} {content : Content}
    (hsource : w.files source = some content) :
    wp (MakeDocument.chooseFile env source deleteSourceFile
        (MakeDocument.resolveMode host source mode) >>= fun r =>
        MakeDocument.addDocumentInfo arena r.1
          ⟨fileName.getD (host.getFileName source), r.2.1, r.2.2⟩ >>= fun _ => pure r.1)
      (fun p w' => Outcome host env w writer
        (.path arena (some source) mode deleteSourceFile fileName) p w')
      (fun _ w' => w'.arenas = w.arenas ∧
        Frame host (.path arena (some source) mode deleteSourceFile fileName) w w') w := by
  have hthrown : w.arenas = w.arenas ∧
      Frame host (.path arena (some source) mode deleteSourceFile fileName) w w :=
    ⟨rfl, .refl _ _⟩
  cases hmode : MakeDocument.resolveMode host source mode with
  | other value => exact hthrown
  | named mode' =>
    cases mode' with
    | autoDetect => exact hthrown
    | useSourceFile =>
      have hentry : entryOf host w.files writer
          (.path arena (some source) mode deleteSourceFile fileName) = none := by
        simp [entryOf, hsource, hmode]
      simp only [MakeDocument.chooseFile, wp_bind, wp_pure]
      refine wp_mono (fun _ w' h => ?_) (fun _ w' h => ?_) wp_register
      · obtain ⟨hfiles, a, arenaInfo, hreg⟩ := h
        exact .foreign rfl ⟨hreg.arena, hreg.before, hreg.free, hreg.after⟩ hentry rfl hfiles
      · rw [h]
        exact hthrown
    | copySourceFile =>
      have hentry : entryOf host w.files writer
          (.path arena (some source) mode deleteSourceFile fileName) =
          some ⟨fileName.getD (host.getFileName source), content⟩ := by
        simp [entryOf, hsource, hmode]
      simp only [MakeDocument.chooseFile, wp_bind, wp_getTempFileName, wp_ite, wp_pure, wp_fileMove]
      refine ⟨fun _ => ⟨trivial, .refl _ _⟩, fun p hp => ?_⟩
      have hfree := env.tempName_fresh _ _ hp
      have hne : source ≠ p := by
        rintro rfl
        cases hfree.symm.trans hsource
      have hcreated : (w.withFile p []).files source = some content :=
        (files_withFile p [] hne).trans hsource
      have hframe : ∀ w', (∀ q, q ≠ p → w'.files q = w.files q) →
          Frame host (.path arena (some source) mode deleteSourceFile fileName) w w' :=
        fun w' h => frame_of_ne hfree h
      refine ⟨fun hdelete => ⟨fun left _ => ⟨rfl, hframe _ fun q hq => ?_⟩, fun _ =>
        ⟨fun _ => ⟨rfl, hframe _ fun q hq => files_withFile p [] hq⟩, fun moved hmoved => ?_⟩⟩,
        fun hdelete => ?_⟩
      · exact (files_withFile p left hq).trans (files_withFile p [] hq)
      · -- the source is moved away
        obtain rfl : content = moved := Option.some.inj (hcreated.symm.trans hmoved)
        have hmove : Frame host (.path arena (some source) mode deleteSourceFile fileName) w
            ⟨Function.update (Function.update (w.withFile p []).files p (some content)) source none,
              w.arenas⟩ := by
          intro q hq hstays
          have hqs : q ≠ source := by
            rintro rfl
            exact hstays ⟨rfl, hdelete, hmode⟩
          have hqp : q ≠ p := fun heq => hq (heq ▸ hfree)
          simp [Function.update_of_ne hqs, Function.update_of_ne hqp, files_withFile p [] hqp]
        exact wp_register_own (.path arena (some source) mode deleteSourceFile fileName) hp rfl
          hmove hentry rfl (.written (by simp [Function.update_of_ne hne.symm]))
          fun _ h => by cases h
      · -- the source is copied later
        have hkept := hframe (w.withFile p []) fun q hq => files_withFile p [] hq
        refine wp_register_own (.path arena (some source) mode deleteSourceFile fileName) hp
          rfl hkept hentry rfl (.copy (files_withFile_self p []) hne hcreated) fun src h => ?_
        cases h
        rfl

theorem ends_path (arena : Option Nat) (filePath : Option π) (mode : MakeDocument.Mode)
    (deleteSourceFile : Bool) (fileName : Option String) :
    Ends host env writer (.path arena filePath mode deleteSourceFile fileName) w := by
  simp only [Ends, MakeDocument.exec, MakeDocument.makeDocument, wp_bind,
    MakeDocument.wp_throwIf, MakeDocument.wp_orThrow, wp_get]
  have hthrown : True ∧ Frame host (.path arena filePath mode deleteSourceFile fileName) w w :=
    ⟨trivial, .refl _ _⟩
  refine ⟨fun _ => hthrown, fun _ => ⟨fun _ => hthrown, fun _ => ⟨fun _ => hthrown,
    fun source hfilePath => ⟨fun _ => hthrown, fun hexists => ⟨fun _ => hthrown, fun _ => ?_⟩⟩⟩⟩⟩
  subst hfilePath
  obtain ⟨content, hcontent⟩ : ∃ content, w.files source = some content :=
    Option.isSome_iff_exists.mp (by simpa using hexists)
  have hchoose := @ends_choose π _ _ host env w writer arena source mode deleteSourceFile fileName
    content hcontent
  simpa only [wp_bind] using hchoose

theorem ends (req : Request π) : Ends host env writer req w := by
  cases req with
  | lazy arena name contentProvider => exact ends_lazy arena name contentProvider
  | path arena filePath mode deleteSourceFile fileName =>
    exact ends_path arena filePath mode deleteSourceFile fileName
  | stream arena document => exact ends_stream arena document

end Requests

/-! ### The library -/

/-- What becomes of the library by an event with this answer. -/
def Library.after (host : Host π) (files : π → Option Content) (lib : Library π) :
    Event π → Answer π → Library π
  | .make _ req writer, .document p =>
    match requestArena req, entryOf host files writer req with
    | some a, some entry => setAt lib a p (some entry)
    | _, _ => lib
  | .use _ a p true ops, .used _ thrown =>
    match lib a p with
    | none => lib
    | some entry =>
      if thrown = some (.call .io) then lib
      else
        match script StreamOp.exec ops (FileStream.open_ true entry.content) with
        | none => lib
        | some r => setAt lib a p (some { entry with content := r.state.memory.content })
  | .renameDocument a p name, .done =>
    match lib a p with
    | none => lib
    | some entry => setAt lib a p (some { entry with name })
  | .dispose a _, _ => Function.update lib a fun _ => none
  | _, _ => lib

/-- The answers that the library expects.  It knows nothing of the other documents.  A request
throws only if it cannot be served in the world `w`. -/
def Library.Expects (host : Host π) (w : World π) (lib : Library π) : Event π → Answer π → Prop
  | .make env req _, answer =>
    (¬ MakeDocument.Serves host env w req ∧ ∃ e, answer = .threw e) ∨
      (MakeDocument.Serves host env w req ∧ ∃ p, answer = .document p ∧ ∀ a, lib a p = none)
  | .use choice a p writable ops, answer => ∀ entry, lib a p = some entry →
    ∃ outputs thrown r, answer = .used outputs thrown ∧
      script StreamOp.exec ops (FileStream.open_ writable entry.content) = some r ∧
      ((outputs = r.outputs ∧ thrown = r.thrown) ∨
        (choice.Fails ∧ outputs <+: r.outputs ∧ thrown = some (.call .io)))
  | .documentName a p, answer => ∀ entry, lib a p = some entry → answer = .name entry.name
  | .renameDocument a p _, answer => ∀ entry, lib a p = some entry → answer = .done
  | .beginArena, answer => ∃ a, answer = .arena a ∧ ∀ p, lib a p = none
  | .dispose _ _, answer => answer = .done
  | .outside _ _, answer => answer = .done

/-- The file belongs to a document of the library. -/
def Library.Has (lib : Library π) (p : π) : Prop := ∃ a entry, lib a p = some entry

/-- A document of the arena is still to be copied from the file. -/
def Awaits (s : Store π) (lib : Library π) (a : Nat) (src : π) : Prop :=
  ∃ p entry arenaInfo info, lib a p = some entry ∧ s.world.arenas a = some arenaInfo ∧
    arenaInfo p = some info ∧ info.contentProvider = some (.copy src) ∧ s.initialized a p = false

/-- The steps that leave the manager its files and the copies to come their sources, and use
streams as they should be used. -/
def Proper (host : Host π) (s : Store π) (lib : Library π) : Event π → Prop
  | .make env req _ =>
    (∀ q, sourceOf req = some q → ¬ lib.Has q) ∧
    (∀ q, Moves host q req → ∀ b, ¬ Awaits s lib b q) ∧
    -- a temporary name is not that of a document
    ∀ p, env.tempName s.world.files = some p →
      ∀ b arenaInfo, s.world.arenas b = some arenaInfo → arenaInfo p = none
  | .use _ a p writable ops =>
    (∀ entry, lib a p = some entry → UsedWell ops (FileStream.open_ writable entry.content)) ∧
    (lib a p = none → writable = true → ∀ b, ¬ Awaits s lib b p)
  | .dispose a _ => ∀ arenaInfo p info, s.world.arenas a = some arenaInfo →
    arenaInfo p = some info → info.deletes = true → ∀ b, b ≠ a → ¬ Awaits s lib b p
  | .outside p _ => ¬ lib.Has p ∧ ∀ b, ¬ Awaits s lib b p
  | _ => True

/-- The library has what the manager has. -/
structure InStep (s : Store π) (lib : Library π) : Prop where
  holds : ∀ {a p entry}, lib a p = some entry → ∃ arenaInfo info,
    s.world.arenas a = some arenaInfo ∧ arenaInfo p = some info ∧ info.name = entry.name ∧
      Holds s a p info.contentProvider entry.content
  /-- no other arena has a document with the file -/
  apart : ∀ {a p entry b arenaInfo info}, lib a p = some entry →
    s.world.arenas b = some arenaInfo → arenaInfo p = some info → b = a
  sources : ∀ {a src}, Awaits s lib a src → ¬ lib.Has src
  /-- a document of a file that is not the manager's has no provider -/
  foreign : ∀ {a arenaInfo p info}, s.world.arenas a = some arenaInfo → arenaInfo p = some info →
    lib a p = none → info.contentProvider = none
  made : ∀ {a}, s.world.arenas a ≠ none → a < s.made

namespace InStep

variable {s s' : Store π} {lib : Library π} {a b : Nat} {p q : π} {entry : Entry}

omit [DecidableEq π] [ToString π] in
theorem has_file (h : InStep s lib) (hp : lib a p = some entry) :
    ∃ content, s.world.files p = some content := by
  obtain ⟨_, _, _, _, _, hholds⟩ := h.holds hp
  exact hholds.file

omit [DecidableEq π] [ToString π] in
/-- A document of the library is no other one. -/
theorem alone (h : InStep s lib) (hp : lib a p = some entry) {entry' : Entry}
    (hb : lib b p = some entry') : b = a := by
  obtain ⟨arenaInfo, info, hinfo, hdoc, -⟩ := h.holds hb
  exact h.apart hp hinfo hdoc

omit [DecidableEq π] [ToString π] in
theorem source_file (h : InStep s lib) (hq : Awaits s lib a q) :
    ∃ content, s.world.files q = some content := by
  obtain ⟨p, entry, arenaInfo, info, hp, hinfo, hdoc, hprovider, hinit⟩ := hq
  obtain ⟨arenaInfo', info', hinfo', hdoc', -, hholds⟩ := h.holds hp
  obtain rfl : arenaInfo = arenaInfo' := Option.some.inj (hinfo.symm.trans hinfo')
  obtain rfl : info = info' := Option.some.inj (hdoc.symm.trans hdoc')
  rw [hprovider] at hholds
  cases hholds with
  | written hi => simp [hinit] at hi
  | copy hi hfile hne hsource => exact ⟨_, hsource⟩

omit [DecidableEq π] [ToString π] in
/-- What a document holds, where the document and its source stay as they are. -/
theorem holds_of_kept (h : InStep s lib) (hp : lib a p = some entry)
    (hfile : s'.world.files p = s.world.files p) (hinit : s'.initialized a p = s.initialized a p)
    (hwriter : s'.writers a p = s.writers a p)
    (hsource : ∀ src, Awaits s lib a src → s'.world.files src = s.world.files src) :
    ∃ arenaInfo info, s.world.arenas a = some arenaInfo ∧ arenaInfo p = some info ∧
      info.name = entry.name ∧ Holds s' a p info.contentProvider entry.content := by
  obtain ⟨arenaInfo, info, hinfo, hdoc, hname, hholds⟩ := h.holds hp
  refine ⟨arenaInfo, info, hinfo, hdoc, hname, hholds.congr hfile hinit hwriter ?_⟩
  exact fun src hcopy hi => hsource src ⟨p, entry, arenaInfo, info, hp, hinfo, hdoc, hcopy, hi⟩

omit [DecidableEq π] [ToString π] in
/-- A step that leaves the documents and the sources as they are. -/
theorem frame (h : InStep s lib) (harenas : s'.world.arenas = s.world.arenas)
    (hmade : s'.made = s.made)
    (hdoc : ∀ a p entry, lib a p = some entry → s'.world.files p = s.world.files p ∧
      s'.initialized a p = s.initialized a p ∧ s'.writers a p = s.writers a p)
    (hsource : ∀ a src, Awaits s lib a src → s'.world.files src = s.world.files src) :
    InStep s' lib where
  holds hp := by
    obtain ⟨hfile, hinit, hwriter⟩ := hdoc _ _ _ hp
    rw [harenas]
    exact h.holds_of_kept hp hfile hinit hwriter fun src => hsource _ src
  apart hp hinfo := by
    rw [harenas] at hinfo
    exact h.apart hp hinfo
  sources := by
    rintro a src ⟨p, entry, arenaInfo, info, hp, hinfo, hdoc', hprovider, hinit⟩
    rw [harenas] at hinfo
    rw [(hdoc _ _ _ hp).2.1] at hinit
    exact h.sources ⟨p, entry, arenaInfo, info, hp, hinfo, hdoc', hprovider, hinit⟩
  foreign hinfo := by
    rw [harenas] at hinfo
    exact h.foreign hinfo
  made := by
    rw [harenas, hmade]
    exact h.made

omit [DecidableEq π] [ToString π] in
theorem beginArena (h : InStep s lib) :
    InStep { s.setArena s.made fun _ => none with made := s.made + 1 } lib := by
  have hold : ∀ {a arenaInfo}, s.world.arenas a = some arenaInfo → a ≠ s.made := by
    rintro a arenaInfo hinfo rfl
    exact absurd (h.made (by simp [hinfo])) (Nat.lt_irrefl _)
  have hdict : ∀ {a arenaInfo p info}, Function.update s.world.arenas s.made
      (some fun _ => none) a = some arenaInfo → arenaInfo p = some info →
      s.world.arenas a = some arenaInfo := by
    intro a arenaInfo p info hinfo hdoc
    by_cases ha : a = s.made
    · subst ha
      rw [Function.update_self] at hinfo
      cases hinfo
      cases hdoc
    · rwa [Function.update_of_ne ha] at hinfo
  constructor
  · intro a p entry hp
    obtain ⟨arenaInfo, info, hinfo, hdoc, hname, hholds⟩ := h.holds hp
    refine ⟨arenaInfo, info, ?_, hdoc, hname, hholds.congr rfl rfl rfl fun _ _ _ => rfl⟩
    exact (Function.update_of_ne (hold hinfo) _ _).trans hinfo
  · exact fun hp hinfo hdoc => h.apart hp (hdict hinfo hdoc) hdoc
  · rintro a src ⟨p, entry, arenaInfo, info, hp, hinfo, hdoc, hprovider, hinit⟩
    exact h.sources ⟨p, entry, arenaInfo, info, hp, hdict hinfo hdoc, hdoc, hprovider, hinit⟩
  · exact fun hinfo hdoc => h.foreign (hdict hinfo hdoc) hdoc
  · intro a ha
    by_cases heq : a = s.made
    · subst heq
      exact Nat.lt_succ_self _
    · exact Nat.lt_succ_of_lt (h.made (by simpa [Store.setArena, heq] using ha))

omit [DecidableEq π] [ToString π] in
theorem next_arena (h : InStep s lib) (p : π) : lib s.made p = none := by
  cases hp : lib s.made p with
  | none => rfl
  | some entry =>
    obtain ⟨arenaInfo, info, hinfo, -⟩ := h.holds hp
    exact absurd (h.made (by simp [hinfo])) (Nat.lt_irrefl _)

end InStep

end Garbage.ContentManager.DocumentStore
