import Garbage.ContentManager.ContentManager
import Garbage.Foundation.Prog

/-!
# Making a document, and failing to

One call of `MakeLazyDocument` or of an overload of `MakeDocument`, on its own, with
the contents of the files and with arguments that may be null.  The environment
says which calls of the file system and of the caller's stream throw.

`Path.GetTempFileName` creates a file.  Behind it `File.Move`, `File.Open` and `CopyTo`
may throw, and so may `AddDocumentInfo`: the arena is null or gone, or it has a document
with this path.  None of the members takes the file back, or the moved file.

So **a call that throws has changed nothing exactly if it did not throw behind the
creation of its temporary file** (`atomic_iff`).
-/

namespace Garbage.ContentManager.MakeDocument

open Foundation (Prog)
open Foundation.Prog

abbrev Content := List UInt8

/-- The files and the manager's dictionaries. -/
structure World (π : Type) where
  files : π → Option Content
  arenas : Nat → Option (π → Option (DocumentInfo π))

/-- What is decided outside: a temporary name is one that no file has. -/
structure Environment (π : Type) where
  /-- `Path.GetTempFileName`; `none` if it throws -/
  tempName : (π → Option Content) → Option π
  tempName_fresh : ∀ files p, tempName files = some p → files p = none
  /-- `File.Move` throws, and leaves this in the destination. -/
  moveThrows : Option Content
  openThrows : Bool
  /-- `CopyTo` or the closing of the file throws, and leaves this in the file. -/
  copyThrows : Option Content

inductive Exn
  | argumentNull (paramName : String)
  | argument (message : String)
  | exception (message : String)
  | notImplemented (message : String)
  /-- of the file system or of the caller's stream -/
  | io
  deriving DecidableEq

/-- An argument of the enumeration, which may be a number without a name. -/
inductive Mode
  | named (mode : FileUsingMode)
  | other (value : Int)
  deriving DecidableEq

variable {π : Type}

abbrev Call (π β : Type) := Prog (World π) Exn β

def isNullOrWhiteSpace (s : Option String) : Bool := s.all fun s => s.toList.all Char.isWhitespace

/-- `if (c) throw e;` -/
def throwIf (c : Bool) (e : Exn) : Call π PUnit := if c then Prog.raise e else pure PUnit.unit

/-- `x ?? throw e` -/
def orThrow {α : Type} (x : Option α) (e : Exn) : Call π α :=
  match x with
  | none => Prog.raise e
  | some a => pure a

def writeFile [DecidableEq π] (path : π) (content : Content) : Call π PUnit :=
  Prog.modify fun w => { w with files := Function.update w.files path (some content) }

def deleteFile [DecidableEq π] (path : π) : Call π PUnit :=
  Prog.modify fun w => { w with files := Function.update w.files path none }

section Members

variable [DecidableEq π] [ToString π] (host : Host π) (env : Environment π)

omit [ToString π] in
def getTempFileName : Call π π := do
  let w ← Prog.get
  let path ← orThrow (env.tempName w.files) .io
  writeFile path []
  pure path

omit [ToString π] in
/-- `File.Move(filePath, arenaFilePath, true)` -/
def fileMove (filePath arenaFilePath : π) : Call π PUnit := do
  match env.moveThrows with
  | some left => do
    writeFile arenaFilePath left
    Prog.raise .io
  | none => do
    let w ← Prog.get
    let content ← orThrow (w.files filePath) .io
    writeFile arenaFilePath content
    deleteFile filePath

omit [ToString π] in
/-- `File.Open` and `CopyTo`. -/
def fill (path : π) (stream : Content) : Call π PUnit := do
  throwIf env.openThrows .io
  match env.copyThrows with
  | some left => do
    writeFile path left
    Prog.raise .io
  | none => writeFile path stream

omit [DecidableEq π] in
/-- `GetArenaInfo`; a dictionary throws for a null key. -/
def getArenaInfo (arena : Option Nat) (documentId : π) :
    Call π (Nat × (π → Option (DocumentInfo π))) := do
  let arena ← orThrow arena (.argumentNull "key")
  let w ← Prog.get
  let arenaInfo ← orThrow (w.arenas arena) (.argument ("Working with disposed arena " ++
    toString arena ++ " for document id '" ++ toString documentId ++ "'"))
  pure (arena, arenaInfo)

def addDocumentInfo (arena : Option Nat) (documentId : π) (info : DocumentInfo π) :
    Call π PUnit := do
  let (arena, arenaInfo) ← getArenaInfo arena documentId
  throwIf (arenaInfo documentId).isSome (.exception ("Content manager document id " ++
    toString documentId ++ " duplicated in arena " ++ toString arena ++ "."))
  Prog.modify fun w =>
    { w with
      arenas := Function.update w.arenas arena
        (some (Function.update arenaInfo documentId (some info))) }

/-- `MakeLazyDocument`; a null provider is `false`. -/
def makeLazyDocument (arena : Option Nat) (name : String) (contentProvider : Bool) : Call π π := do
  throwIf (!contentProvider) (.argumentNull "contentProvider")
  let documentId ← getTempFileName env
  addDocumentInfo arena documentId ⟨name, true, some .custom⟩
  pure documentId

omit [ToString π] in
/-- The `switch` of `MakeDocument`: the path of the document, whether the closing deletes
it, and its provider. -/
def chooseFile (filePath : π) (deleteSourceFile : Bool) :
    Mode → Call π (π × Bool × Option (ContentProvider π))
  | .named .useSourceFile => pure (filePath, deleteSourceFile, none)
  | .named .copySourceFile => do
    let arenaFilePath ← getTempFileName env
    if deleteSourceFile then do
      fileMove env filePath arenaFilePath
      pure (arenaFilePath, true, none)
    else pure (arenaFilePath, true, some (.copy filePath))
  | .named .autoDetect => Prog.raise (.notImplemented "mode=AutoDetect")
  | .other value => Prog.raise (.notImplemented ("mode=" ++ toString value))

omit [DecidableEq π] [ToString π] in
def resolveMode (filePath : π) (mode : Mode) : Mode :=
  if mode = .named .autoDetect then
    .named (if host.pathIsNetworkPath filePath then .copySourceFile else .useSourceFile)
  else mode

/-- `MakeDocument` with a path. -/
def makeDocument (arena : Option Nat) (filePath : Option π) (mode : Mode)
    (deleteSourceFile : Bool) (fileName : Option String) : Call π π := do
  throwIf arena.isNone (.argumentNull "arena")
  throwIf (isNullOrWhiteSpace (filePath.map toString)) (.argument "filePath")
  let filePath ← orThrow filePath (.argument "filePath")
  let w ← Prog.get
  throwIf (w.files filePath).isNone
    (.argument ("filePath = '" ++ toString filePath ++ "' does not exists."))
  let fileName := fileName.getD (host.getFileName filePath)
  throwIf (isNullOrWhiteSpace (some fileName)) (.argument "fileName is empty.")
  let (documentId, deletes, contentProvider) ← chooseFile env filePath deleteSourceFile
    (resolveMode host filePath mode)
  addDocumentInfo arena documentId ⟨fileName, deletes, contentProvider⟩
  pure documentId

/-- `MakeDocument` with a named stream; null streams are `none`. -/
def makeStreamDocument (arena : Option Nat) (document : Option (String × Option Content)) :
    Call π π := do
  let (name, stream) ← orThrow document (.argumentNull "document")
  let stream ← orThrow stream (.argumentNull "document.Stream")
  let documentId ← getTempFileName env
  fill env documentId stream
  addDocumentInfo arena documentId ⟨name, true, none⟩
  pure documentId

inductive Request (π : Type)
  | lazy (arena : Option Nat) (name : String) (contentProvider : Bool)
  | path (arena : Option Nat) (filePath : Option π) (mode : Mode)
      (deleteSourceFile : Bool) (fileName : Option String)
  | stream (arena : Option Nat) (document : Option (String × Option Content))

def exec : Request π → Call π π
  | .lazy arena name contentProvider => makeLazyDocument env arena name contentProvider
  | .path arena filePath mode deleteSourceFile fileName =>
    makeDocument host env arena filePath mode deleteSourceFile fileName
  | .stream arena document => makeStreamDocument env arena document

end Members

/-! ### Failing behind the temporary file -/

/-- The arena is in the manager and has no document of this path. -/
def Registrable (arena : Option Nat) (documentId : π) (w : World π) : Prop :=
  ∃ a arenaInfo, arena = some a ∧ w.arenas a = some arenaInfo ∧ arenaInfo documentId = none

def World.withFile [DecidableEq π] (w : World π) (path : π) (content : Content) : World π :=
  { w with files := Function.update w.files path (some content) }

variable {β γ : Type}

/-- If `late` the call throws and leaves a file at `p`, else it returns. -/
structure LateOnly (late : Prop) (p : π) (x : Call π β) (Q : World π → Prop) (w : World π) :
    Prop where
  returns : ¬ late → wp x (fun _ => Q) (fun _ _ => False) w
  leaves : late → wp x (fun _ _ => False) (fun _ w' => w'.files p ≠ none) w

/-- If `late` the call throws and leaves another world, else it leaves this one if it
throws. -/
structure Verdict (late : Prop) (x : Call π β) (w : World π) : Prop where
  atomic : ¬ late → wp x (fun _ _ => True) (fun _ w' => w' = w) w
  leaves : late → wp x (fun _ _ => False) (fun _ w' => w' ≠ w) w

section Rules

variable {w : World π} {p : π} {late late' : Prop} {Q Q' : World π → Prop} {e : Exn}

@[simp] theorem wp_throwIf {c : Bool} {Q : PUnit → World π → Prop} {E : Exn → World π → Prop} :
    wp (throwIf c e) Q E w ↔ (c = true → E e w) ∧ (c = false → Q PUnit.unit w) := by
  unfold throwIf
  cases c <;> simp

@[simp] theorem wp_orThrow {α : Type} {x : Option α} {Q : α → World π → Prop}
    {E : Exn → World π → Prop} :
    wp (orThrow x e) Q E w ↔ (x = none → E e w) ∧ ∀ a, x = some a → Q a w := by
  unfold orThrow
  cases x <;> simp

theorem LateOnly.bind {x : Call π β} {f : β → Call π γ} (h : LateOnly late p x Q w)
    (hf : ∀ b w', Q w' → LateOnly late' p (f b) Q' w') :
    LateOnly (late ∨ late') p (x >>= f) Q' w := by
  constructor
  · intro hlate
    rw [wp_bind]
    refine (h.returns fun hl => hlate (.inl hl)).imp fun b w' hw' => ?_
    exact (hf b w' hw').returns fun hl => hlate (.inr hl)
  · intro hlate
    rw [wp_bind]
    by_cases hl : late
    · exact (h.leaves hl).imp fun _ _ hfalse => hfalse.elim
    · refine wp_mono (fun b w' hw' => ?_) (fun _ _ hfalse => hfalse.elim) (h.returns hl)
      exact (hf b w' hw').leaves (hlate.resolve_left hl)

theorem LateOnly.assoc {α : Type} {x : Call π α} {f : α → Call π β} {g : β → Call π γ}
    (h : LateOnly late p (x >>= fun a => f a >>= g) Q w) : LateOnly late p ((x >>= f) >>= g) Q w :=
  ⟨fun hl => by simpa using h.returns hl, fun hl => by simpa using h.leaves hl⟩

theorem Verdict.congr {x : Call π β} (h : Verdict late x w) (hiff : late ↔ late') :
    Verdict late' x w :=
  ⟨fun hl => h.atomic (mt hiff.mp hl), fun hl => h.leaves (hiff.mpr hl)⟩

theorem Verdict.throwIf {c : Bool} {x : Call π β} (h : c = false → Verdict late x w) :
    Verdict (c = false ∧ late) (throwIf c e >>= fun _ => x) w := by
  constructor
  · intro hlate
    rw [wp_bind, wp_throwIf]
    exact ⟨fun _ => rfl, fun hc => (h hc).atomic fun hl => hlate ⟨hc, hl⟩⟩
  · intro ⟨hc, hl⟩
    rw [wp_bind, wp_throwIf]
    exact ⟨fun hc' => absurd hc' (by simp [hc]), fun _ => (h hc).leaves hl⟩

theorem Verdict.orThrow {α : Type} {o : Option α} {late : α → Prop} {f : α → Call π β}
    (h : ∀ a, o = some a → Verdict (late a) (f a) w) :
    Verdict (∃ a, o = some a ∧ late a) (orThrow o e >>= f) w := by
  constructor
  · intro hlate
    rw [wp_bind, wp_orThrow]
    exact ⟨fun _ => rfl, fun a ha => (h a ha).atomic fun hl => hlate ⟨a, ha, hl⟩⟩
  · intro ⟨a, ha, hl⟩
    rw [wp_bind, wp_orThrow]
    refine ⟨fun hn => absurd hn (by simp [ha]), fun a' ha' => ?_⟩
    obtain rfl : a = a' := Option.some.inj (ha.symm.trans ha')
    exact (h a ha).leaves hl

theorem Verdict.get {f : World π → Call π β} (h : Verdict late (f w) w) :
    Verdict late (Prog.get >>= f) w := ⟨h.atomic, h.leaves⟩

theorem Verdict.assoc {α : Type} {x : Call π α} {f : α → Call π β} {g : β → Call π γ}
    (h : Verdict late (x >>= fun a => f a >>= g) w) : Verdict late ((x >>= f) >>= g) w :=
  ⟨fun hl => by simpa using h.atomic hl, fun hl => by simpa using h.leaves hl⟩

/-- The creation of the temporary file, and what throws behind it. -/
theorem Verdict.temp [DecidableEq π] {env : Environment π} {late : π → Prop} {f : π → Call π β}
    (h : ∀ p, env.tempName w.files = some p → LateOnly (late p) p (f p) Q (w.withFile p [])) :
    Verdict (∃ p, env.tempName w.files = some p ∧ late p) (getTempFileName env >>= f) w := by
  apply Verdict.assoc
  apply Verdict.get
  apply Verdict.assoc
  apply Verdict.orThrow
  intro p hp
  have hnew : ∀ w' : World π, w'.files p ≠ none → w' ≠ w := by
    intro w' hw' heq
    rw [heq] at hw'
    exact hw' (env.tempName_fresh _ _ hp)
  constructor
  · intro hlate
    exact wp_mono (fun _ _ _ => trivial) (fun _ _ hfalse => hfalse.elim) ((h p hp).returns hlate)
  · intro hlate
    exact wp_mono (fun _ _ hfalse => hfalse) (fun _ w' => hnew w') ((h p hp).leaves hlate)

end Rules

/-! ### The members -/

section Members

variable [DecidableEq π] [ToString π] {host : Host π} {env : Environment π} {w w' : World π}

omit [DecidableEq π] [ToString π] in
theorem registrable_congr {arena : Option Nat} {p : π} (h : w'.arenas = w.arenas) :
    Registrable arena p w' ↔ Registrable arena p w := by
  unfold Registrable
  rw [h]

theorem wp_addDocumentInfo {arena : Option Nat} {p : π} {info : DocumentInfo π}
    {Q : PUnit → World π → Prop} {E : Exn → World π → Prop}
    (hQ : Registrable arena p w → ∀ arenas, Q PUnit.unit { w with arenas })
    (hE : ¬ Registrable arena p w → ∀ e, E e w) :
    wp (addDocumentInfo arena p info) Q E w := by
  simp only [addDocumentInfo, getArenaInfo, wp_bind, wp_orThrow, wp_get, wp_pure, wp_throwIf,
    wp_modify]
  refine ⟨fun harena => hE (fun hreg => ?_) _, fun a ha => ⟨fun hgone => ?_,
    fun arenaInfo hinfo => ⟨fun hdup => ?_, fun hnew => ?_⟩⟩⟩
  · obtain ⟨a, _, ha, _⟩ := hreg
    cases harena.symm.trans ha
  · refine hE (fun hreg => ?_) _
    obtain ⟨a', arenaInfo, ha', hinfo, _⟩ := hreg
    obtain rfl : a = a' := Option.some.inj (ha.symm.trans ha')
    cases hgone.symm.trans hinfo
  · refine hE (fun hreg => ?_) _
    obtain ⟨a', arenaInfo', ha', hinfo', hfree⟩ := hreg
    obtain rfl : a = a' := Option.some.inj (ha.symm.trans ha')
    obtain rfl : arenaInfo = arenaInfo' := Option.some.inj (hinfo.symm.trans hinfo')
    simp [hfree] at hdup
  · exact hQ ⟨a, arenaInfo, ha, hinfo, by simpa using hnew⟩ _

/-- Without a temporary file nothing is to be taken back. -/
theorem verdict_register {arena : Option Nat} {p : π} {info : DocumentInfo π} :
    Verdict False (addDocumentInfo arena p info >>= fun _ => pure p) w := by
  refine ⟨fun _ => ?_, False.elim⟩
  rw [wp_bind]
  exact wp_addDocumentInfo (fun _ _ => trivial) fun _ _ => rfl

theorem lateOnly_register {arena : Option Nat} {p : π} {info : DocumentInfo π}
    (hfile : w.files p ≠ none) :
    LateOnly (¬ Registrable arena p w) p (addDocumentInfo arena p info >>= fun _ => pure p)
      (fun _ => True) w := by
  constructor
  · intro hreg
    rw [wp_bind]
    exact wp_addDocumentInfo (fun _ _ => trivial) fun hnot => (hreg hnot).elim
  · intro hnot
    rw [wp_bind]
    exact wp_addDocumentInfo (fun hreg => (hnot hreg).elim) fun _ _ => hfile

/-- What a call leaves that changes files, and keeps the one at `p`. -/
def Kept (w : World π) (p : π) (w' : World π) : Prop := w'.arenas = w.arenas ∧ w'.files p ≠ none

omit [ToString π] in
theorem kept_withFile (p : π) (content : Content) : Kept w p (w.withFile p content) :=
  ⟨rfl, by simp [World.withFile]⟩

theorem Kept.lateOnly_register {arena : Option Nat} {p : π} {info : DocumentInfo π}
    (h : Kept w p w') :
    LateOnly (¬ Registrable arena p w) p (addDocumentInfo arena p info >>= fun _ => pure p)
      (fun _ => True) w' := by
  rw [← registrable_congr h.1]
  exact MakeDocument.lateOnly_register h.2

omit [ToString π] in
theorem Kept.writeFile {p : π} (h : Kept w p w') (content : Content) :
    Kept w p (w'.withFile p content) := ⟨h.1, by simp [World.withFile]⟩

omit [ToString π] in
theorem lateOnly_fill {p : π} {stream : Content} (h : Kept w p w') :
    LateOnly (env.openThrows = true ∨ env.copyThrows.isSome = true) p (fill env p stream)
      (Kept w p) w' := by
  unfold fill
  constructor
  · intro hlate
    obtain ⟨hopen, hcopy⟩ := not_or.mp hlate
    rw [wp_bind, wp_throwIf]
    refine ⟨hopen, fun _ => ?_⟩
    split
    · next left hsome => exact hcopy (by simp [hsome])
    · exact h.writeFile stream
  · intro hlate
    rw [wp_bind, wp_throwIf]
    refine ⟨fun _ => h.2, fun hopen => ?_⟩
    split
    · next left hsome => exact (h.writeFile left).2
    · next hnone => simp [hopen, hnone] at hlate

omit [ToString π] in
theorem lateOnly_fileMove {p filePath : π} (h : Kept w p w') (hne : filePath ≠ p)
    (hsource : w'.files filePath ≠ none) :
    LateOnly (env.moveThrows.isSome = true) p (fileMove env filePath p) (Kept w p) w' := by
  unfold fileMove
  constructor
  · intro hlate
    split
    · next left hsome => exact absurd (by simp [hsome]) hlate
    · rw [wp_bind, wp_get, wp_bind, wp_orThrow]
      refine ⟨fun hnone => hsource hnone, fun content _ => ⟨h.1, ?_⟩⟩
      simp [Function.update_of_ne hne.symm]
  · intro hlate
    split
    · next left hsome => exact (h.writeFile left).2
    · next hnone => simp [hnone] at hlate

/-! ### Atomicity -/

/-- The arguments pass the checks of `MakeDocument` with a path. -/
def PassesChecks (host : Host π) (w : World π) (filePath : π) (fileName : Option String) : Prop :=
  isNullOrWhiteSpace (some (toString filePath)) = false ∧ (w.files filePath).isSome = true ∧
    isNullOrWhiteSpace (some (fileName.getD (host.getFileName filePath))) = false

/-- The call makes a temporary file, and throws at a later point. -/
def FailsBehindTemp (host : Host π) (env : Environment π) (w : World π) : Request π → Prop
  | .lazy arena _ contentProvider =>
    contentProvider = true ∧ ∃ p, env.tempName w.files = some p ∧ ¬ Registrable arena p w
  | .path arena filePath mode deleteSourceFile fileName =>
    ∃ source, filePath = some source ∧ arena.isSome = true ∧ PassesChecks host w source fileName ∧
      resolveMode host source mode = .named .copySourceFile ∧
      ∃ p, env.tempName w.files = some p ∧
        ((deleteSourceFile = true ∧ env.moveThrows.isSome = true) ∨ ¬ Registrable arena p w)
  | .stream arena document =>
    ∃ name stream, document = some (name, some stream) ∧
      ∃ p, env.tempName w.files = some p ∧
        ((env.openThrows = true ∨ env.copyThrows.isSome = true) ∨ ¬ Registrable arena p w)

theorem verdict_makeLazyDocument (arena : Option Nat) (name : String) (contentProvider : Bool) :
    Verdict (FailsBehindTemp host env w (.lazy arena name contentProvider))
      (makeLazyDocument env arena name contentProvider) w := by
  unfold makeLazyDocument
  apply Verdict.congr
  case h =>
    apply Verdict.throwIf
    intro _
    apply Verdict.temp
    intro p _
    exact (kept_withFile p []).lateOnly_register
  case hiff =>
    simp [FailsBehindTemp]

theorem verdict_makeStreamDocument (arena : Option Nat)
    (document : Option (String × Option Content)) :
    Verdict (FailsBehindTemp host env w (.stream arena document))
      (makeStreamDocument env arena document) w := by
  unfold makeStreamDocument
  apply Verdict.congr
  case h =>
    apply Verdict.orThrow
    intro document _
    apply Verdict.orThrow
    intro stream _
    apply Verdict.temp
    intro p _
    exact (lateOnly_fill (kept_withFile p [])).bind fun _ _ h => h.lateOnly_register
  case hiff =>
    simp [FailsBehindTemp]

/-- The `switch`, and the registration of the document it chose. -/
theorem verdict_chooseFile {arena : Option Nat} {source : π} {name : String}
    {deleteSourceFile : Bool} (mode : Mode) (hsource : w.files source ≠ none) :
    Verdict (mode = .named .copySourceFile ∧ ∃ p, env.tempName w.files = some p ∧
        ((deleteSourceFile = true ∧ env.moveThrows.isSome = true) ∨ ¬ Registrable arena p w))
      (chooseFile env source deleteSourceFile mode >>= fun r =>
        addDocumentInfo arena r.1 ⟨name, r.2.1, r.2.2⟩ >>= fun _ => pure r.1) w := by
  cases mode with
  | other value => exact ⟨fun _ => rfl, fun h => by simp at h⟩
  | named mode =>
    cases mode with
    | autoDetect => exact ⟨fun _ => rfl, fun h => by simp at h⟩
    | useSourceFile => exact verdict_register.congr (by simp)
    | copySourceFile =>
      cases deleteSourceFile with
      | false =>
        have hreg : ∀ p, env.tempName w.files = some p → LateOnly (¬ Registrable arena p w) p
            (addDocumentInfo arena p ⟨name, true, some (.copy source)⟩ >>= fun _ => pure p)
            (fun _ => True) (w.withFile p []) :=
          fun p _ => (kept_withFile p []).lateOnly_register
        exact (Verdict.assoc (Verdict.temp hreg)).congr (by simp)
      | true =>
        have hmove : ∀ p, env.tempName w.files = some p →
            LateOnly (env.moveThrows.isSome = true ∨ ¬ Registrable arena p w) p
              (fileMove env source p >>= fun _ =>
                addDocumentInfo arena p ⟨name, true, none⟩ >>= fun _ => pure p)
              (fun _ => True) (w.withFile p []) := by
          intro p hp
          have hne : source ≠ p := by
            intro heq
            exact hsource (heq ▸ env.tempName_fresh _ _ hp)
          have hkept : (w.withFile p []).files source ≠ none := by
            simpa [World.withFile, Function.update_of_ne hne] using hsource
          exact (lateOnly_fileMove (kept_withFile p []) hne hkept).bind fun _ _ h =>
            h.lateOnly_register
        exact (Verdict.assoc (Verdict.temp fun p hp => LateOnly.assoc (hmove p hp))).congr
          (by simp)

theorem verdict_makeDocument (arena : Option Nat) (filePath : Option π) (mode : Mode)
    (deleteSourceFile : Bool) (fileName : Option String) :
    Verdict (FailsBehindTemp host env w (.path arena filePath mode deleteSourceFile fileName))
      (makeDocument host env arena filePath mode deleteSourceFile fileName) w := by
  unfold makeDocument
  apply Verdict.congr
  case h =>
    apply Verdict.throwIf
    intro _
    apply Verdict.throwIf
    intro _
    apply Verdict.orThrow
    intro source _
    apply Verdict.get
    apply Verdict.throwIf
    intro hsource
    apply Verdict.throwIf
    intro _
    exact verdict_chooseFile _ (Option.isSome_iff_ne_none.mp (by simpa using hsource))
  case hiff =>
    cases filePath with
    | none => simp [FailsBehindTemp]
    | some source => simp [FailsBehindTemp, PassesChecks, and_assoc]

theorem verdict_exec (req : Request π) :
    Verdict (FailsBehindTemp host env w req) (exec host env req) w := by
  cases req with
  | lazy arena name contentProvider => exact verdict_makeLazyDocument arena name contentProvider
  | path arena filePath mode deleteSourceFile fileName =>
    exact verdict_makeDocument arena filePath mode deleteSourceFile fileName
  | stream arena document => exact verdict_makeStreamDocument arena document

/-- Where the call throws, it has changed no file and no dictionary. -/
def Atomic (host : Host π) (env : Environment π) (w : World π) (req : Request π) : Prop :=
  ∀ e w', exec host env req w = some (.error e, w') → w' = w

/-- The call returns if `served`, else it throws. -/
def Decides (served : Prop) (x : Call π β) (w : World π) : Prop :=
  wp x (fun _ _ => served) (fun _ _ => ¬ served) w

section Decides

variable {served served' : Prop} {e : Exn}

omit [DecidableEq π] [ToString π] in
theorem Decides.congr {x : Call π β} (h : Decides served x w) (hiff : served ↔ served') :
    Decides served' x w :=
  wp_mono (fun _ _ => hiff.mp) (fun _ _ hnot hserved => hnot (hiff.mpr hserved)) h

omit [DecidableEq π] [ToString π] in
theorem Decides.assoc {α : Type} {x : Call π α} {f : α → Call π β} {g : β → Call π γ}
    (h : Decides served (x >>= fun a => f a >>= g) w) : Decides served ((x >>= f) >>= g) w := by
  unfold Decides at h ⊢
  simpa only [wp_bind] using h

omit [DecidableEq π] [ToString π] in
theorem Decides.throwIf {c : Bool} {x : Call π β} (h : c = false → Decides served x w) :
    Decides (c = false ∧ served) (throwIf c e >>= fun _ => x) w := by
  unfold Decides
  rw [wp_bind, wp_throwIf]
  refine ⟨fun hc hserved => by simp [hc] at hserved, fun hc => ?_⟩
  exact (h hc).congr ⟨fun hserved => ⟨hc, hserved⟩, And.right⟩

omit [DecidableEq π] [ToString π] in
theorem Decides.orThrow {α : Type} {o : Option α} {served : α → Prop} {f : α → Call π β}
    (h : ∀ a, o = some a → Decides (served a) (f a) w) :
    Decides (∃ a, o = some a ∧ served a) (orThrow o e >>= f) w := by
  unfold Decides
  rw [wp_bind, wp_orThrow]
  refine ⟨fun hnone => by simp [hnone], fun a ha => ?_⟩
  refine (h a ha).congr ⟨fun hserved => ⟨a, ha, hserved⟩, ?_⟩
  rintro ⟨a', ha', hserved⟩
  obtain rfl : a = a' := Option.some.inj (ha.symm.trans ha')
  exact hserved

omit [DecidableEq π] [ToString π] in
theorem Decides.get {f : World π → Call π β} (h : Decides served (f w) w) :
    Decides served (Prog.get >>= f) w := h

omit [ToString π] in
theorem Decides.temp {served : π → Prop} {f : π → Call π β}
    (h : ∀ p, env.tempName w.files = some p → Decides (served p) (f p) (w.withFile p [])) :
    Decides (∃ p, env.tempName w.files = some p ∧ served p) (getTempFileName env >>= f) w := by
  apply Decides.assoc
  apply Decides.get
  apply Decides.assoc
  apply Decides.orThrow
  exact h

theorem decides_register {arena : Option Nat} {p : π} {info : DocumentInfo π}
    (h : w'.arenas = w.arenas) :
    Decides (Registrable arena p w) (addDocumentInfo arena p info >>= fun _ => pure p) w' := by
  unfold Decides
  rw [wp_bind]
  refine wp_addDocumentInfo (fun hreg _ => ?_) fun hnot _ => ?_
  · exact (registrable_congr h).mp hreg
  · exact mt (registrable_congr h).mpr hnot

omit [ToString π] in
theorem decides_fill {p : π} {stream : Content} {f : PUnit → Call π β}
    (h : Decides served (f PUnit.unit) (w.withFile p stream)) :
    Decides (env.openThrows = false ∧ env.copyThrows = none ∧ served)
      (fill env p stream >>= f) w := by
  apply Decides.assoc
  apply Decides.throwIf
  intro _
  cases hcopy : env.copyThrows with
  | some left => exact fun hserved => by cases hserved.1
  | none =>
    have hserved : Decides served (f PUnit.unit) (w.withFile p stream) := h
    exact hserved.congr (by simp)

omit [ToString π] in
theorem decides_fileMove {p source : π} {content : Content} {f : PUnit → Call π β}
    (hsource : w.files source = some content)
    (h : ∀ files, Decides served (f PUnit.unit) { w with files }) :
    Decides (env.moveThrows = none ∧ served) (fileMove env source p >>= f) w := by
  unfold fileMove
  cases hmove : env.moveThrows with
  | some left => exact fun hserved => by cases hserved.1
  | none =>
    unfold Decides
    simp only [wp_bind, wp_get, wp_orThrow, hsource, writeFile, deleteFile, wp_modify]
    refine ⟨fun hnone => (by cases hnone), fun _ _ => ?_⟩
    exact (h _).congr (by simp)

end Decides

/-- The arguments are right, the file system does not throw, and the arena takes the
document. -/
def Serves (host : Host π) (env : Environment π) (w : World π) : Request π → Prop
  | .lazy arena _ contentProvider =>
    contentProvider = true ∧ ∃ p, env.tempName w.files = some p ∧ Registrable arena p w
  | .path arena filePath mode deleteSourceFile fileName =>
    ∃ source, filePath = some source ∧ arena.isSome = true ∧ PassesChecks host w source fileName ∧
      ((resolveMode host source mode = .named .useSourceFile ∧ Registrable arena source w) ∨
        (resolveMode host source mode = .named .copySourceFile ∧
          ∃ p, env.tempName w.files = some p ∧
            (deleteSourceFile = true → env.moveThrows = none) ∧ Registrable arena p w))
  | .stream arena document =>
    ∃ name stream, document = some (name, some stream) ∧
      ∃ p, env.tempName w.files = some p ∧
        env.openThrows = false ∧ env.copyThrows = none ∧ Registrable arena p w

theorem decides_makeLazyDocument (arena : Option Nat) (name : String) (contentProvider : Bool) :
    Decides (Serves host env w (.lazy arena name contentProvider))
      (makeLazyDocument env arena name contentProvider) w := by
  unfold makeLazyDocument
  apply Decides.congr
  case h =>
    apply Decides.throwIf
    intro _
    apply Decides.temp
    intro p _
    exact decides_register (w := w) rfl
  case hiff =>
    simp [Serves]

theorem decides_makeStreamDocument (arena : Option Nat)
    (document : Option (String × Option Content)) :
    Decides (Serves host env w (.stream arena document))
      (makeStreamDocument env arena document) w := by
  unfold makeStreamDocument
  apply Decides.congr
  case h =>
    apply Decides.orThrow
    intro document _
    apply Decides.orThrow
    intro stream _
    apply Decides.temp
    intro p _
    exact decides_fill (decides_register (w := w) rfl)
  case hiff =>
    simp [Serves]

theorem decides_chooseFile {arena : Option Nat} {source : π} {name : String}
    {deleteSourceFile : Bool} (mode : Mode) (hsource : w.files source ≠ none) :
    Decides ((mode = .named .useSourceFile ∧ Registrable arena source w) ∨
        (mode = .named .copySourceFile ∧ ∃ p, env.tempName w.files = some p ∧
          (deleteSourceFile = true → env.moveThrows = none) ∧ Registrable arena p w))
      (chooseFile env source deleteSourceFile mode >>= fun r =>
        addDocumentInfo arena r.1 ⟨name, r.2.1, r.2.2⟩ >>= fun _ => pure r.1) w := by
  cases mode with
  | other value => exact fun h => by simp at h
  | named mode =>
    cases mode with
    | autoDetect => exact fun h => by simp at h
    | useSourceFile => exact (decides_register (w := w) rfl).congr (by simp)
    | copySourceFile =>
      cases deleteSourceFile with
      | false =>
        have hreg : ∀ p, env.tempName w.files = some p → Decides (Registrable arena p w)
            (addDocumentInfo arena p ⟨name, true, some (.copy source)⟩ >>= fun _ => pure p)
            (w.withFile p []) := fun p _ => decides_register rfl
        exact (Decides.assoc (Decides.temp hreg)).congr (by simp)
      | true =>
        have hmove : ∀ p, env.tempName w.files = some p →
            Decides (env.moveThrows = none ∧ Registrable arena p w) (fileMove env source p >>=
              fun _ => addDocumentInfo arena p ⟨name, true, none⟩ >>= fun _ => pure p)
              (w.withFile p []) := by
          intro p hp
          have hne : source ≠ p := by
            intro heq
            exact hsource (heq ▸ env.tempName_fresh _ _ hp)
          obtain ⟨content, hcontent⟩ := Option.ne_none_iff_exists'.mp hsource
          have hkept : (w.withFile p []).files source = some content := by
            simpa [World.withFile, Function.update_of_ne hne] using hcontent
          exact decides_fileMove hkept fun files => decides_register rfl
        exact (Decides.assoc (Decides.temp fun p hp => Decides.assoc (hmove p hp))).congr
          (by simp)

theorem decides_makeDocument (arena : Option Nat) (filePath : Option π) (mode : Mode)
    (deleteSourceFile : Bool) (fileName : Option String) :
    Decides (Serves host env w (.path arena filePath mode deleteSourceFile fileName))
      (makeDocument host env arena filePath mode deleteSourceFile fileName) w := by
  unfold makeDocument
  apply Decides.congr
  case h =>
    apply Decides.throwIf
    intro _
    apply Decides.throwIf
    intro _
    apply Decides.orThrow
    intro source _
    apply Decides.get
    apply Decides.throwIf
    intro hsource
    apply Decides.throwIf
    intro _
    exact decides_chooseFile _ (Option.isSome_iff_ne_none.mp (by simpa using hsource))
  case hiff =>
    cases filePath with
    | none => simp [Serves]
    | some source => simp [Serves, PassesChecks, and_assoc]

/-- A request that can be served returns a document, any other throws. -/
theorem decides_exec (req : Request π) :
    Decides (Serves host env w req) (exec host env req) w := by
  cases req with
  | lazy arena name contentProvider => exact decides_makeLazyDocument arena name contentProvider
  | path arena filePath mode deleteSourceFile fileName =>
    exact decides_makeDocument arena filePath mode deleteSourceFile fileName
  | stream arena document => exact decides_makeStreamDocument arena document

end Members

/-- A temporary folder with one name. -/
def oneTemp : Environment String where
  tempName files := if files "temp" = none then some "temp" else none
  tempName_fresh files p h := by
    split at h
    · next hfree => exact Option.some.inj h ▸ hfree
    · cases h
  moveThrows := none
  openThrows := false
  copyThrows := none

end Garbage.ContentManager.MakeDocument
