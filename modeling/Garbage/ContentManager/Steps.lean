import Mathlib.Tactic.Push
import Garbage.ContentManager.ContentManager

/-!
# Who looks after a file

The closing of an arena deletes the files of the documents in its snapshot, and a
thread that has created a temporary file adds its document later.  So a file of
an arena is looked after if its document will be deleted (`ToBeDeleted`) or a
thread has it in hand (`InHand`).  The members lose a file when a call throws with
its temporary file in hand, when a document comes after the snapshot, and when the
content of a document is written after its deletion.  `Kept` excludes these steps.

`Step` says what each step does to the files, the dictionaries and the threads.
-/

namespace Garbage.ContentManager

open Foundation (Machine OwnedFiles)

variable {τ π : Type}

/-- The arena is disposed of, and no call about it is in progress. -/
def State.Finished (s : State τ π) (a : Nat) : Prop :=
  a < s.made ∧ s.arenas a = false ∧ ∀ t, (s.pc t).arena ≠ some a

/-- No finished arena owns a file. -/
def State.NoOrphan (s : State τ π) : Prop := ∀ a, s.Finished a → ∀ p, ¬ s.files.OwnedBy p a

/-! ### The files that are looked after -/

/-- The snapshot of the arena is still to come. -/
def State.Open (s : State τ π) (a : Nat) : Prop := s.arenas a = true ∨ ∃ t, s.pc t = .toList a

/-- The closing of the arena will delete the file. -/
def State.ToBeDeleted (s : State τ π) (a : Nat) (p : π) : Prop :=
  ∃ info : DocumentInfo π, info.deletes = true ∧
    ((p, info) ∈ s.infos a ∧ s.Open a ∨ ∃ t rest, s.pc t = .closing a rest ∧ (p, info) ∈ rest)

/-- The temporary file that the thread is about to add. -/
def Pc.temp : Pc π → Option (Nat × π)
  | .fill a p _ _ | .getArenaInfo a p _ true | .tryAdd a p _ true => some (a, p)
  | _ => none

/-- A thread has the file in hand. -/
def State.InHand (s : State τ π) (a : Nat) (p : π) : Prop := ∃ t, (s.pc t).temp = some (a, p)

/-- A temporary file is let go only if it will be deleted anyway. -/
def State.MayDrop (s : State τ π) (a : Nat) (p : π) : Prop :=
  s.files.OwnedBy p a → s.ToBeDeleted a p

variable [DecidableEq π]

/-- The steps that lose no file: a call that throws with a temporary file in hand
leaves it to another document of the arena, a document with a file to delete
comes before the snapshot, and content is written only before the deletion. -/
def Kept (s : State τ π) : Action τ π → Prop
  | .call _ _ => True
  | .step t choice =>
    match s.pc t with
    | .fill a p purpose _ =>
      choice.fails = true ∨ (∃ filePath, purpose = .move filePath ∧ s.files filePath = none) →
        s.MayDrop a p
    | .getArenaInfo a p _ true => s.arenas a = false → s.MayDrop a p
    | .tryAdd a p info temp =>
      match (s.infos a).lookup p with
      | some _ => temp = true → s.MayDrop a p
      | none => info.deletes = true → s.files p ≠ none →
        (temp = false ∨ s.files.OwnedBy p a) → s.Open a
    | .prepare a p .custom => choice.creates = true → s.files p = none → s.ToBeDeleted a p
    | .prepareOnce a p filePath =>
      choice.fails = false → s.files filePath ≠ none → s.files p = none → s.ToBeDeleted a p
    | _ => True

/-! ### What a step can do -/

/-- The documents that a closing has still to go through. -/
def Pc.rest : Pc π → List (π × DocumentInfo π)
  | .closing _ rest => rest
  | _ => []

/-- The document of a thread with a temporary file is to be deleted. -/
def Pc.Sane : Pc π → Prop
  | .getArenaInfo _ _ info true | .tryAdd _ _ info true => info.deletes = true
  | _ => True

variable [DecidableEq τ]

/-- The thread goes on; `endArena`, `prepared` and `results` matter to no file. -/
def State.goOn (s : State τ π) (t : τ) (pc : Pc π) (endArena : Nat → Bool)
    (prepared : Nat → π → Bool) (results : τ → Option (Result π)) : State τ π :=
  { s with endArena, prepared, results, pc := Function.update s.pc t pc }

/-- The steps of a thread, as far as the files and who looks after them see them. -/
inductive Step (s : State τ π) (t : τ) (choice : Choice π) : State τ π → Prop
  | quiet {pc e r l} (htemp : (s.pc t).temp = none) (hlist : ∀ a, s.pc t ≠ .toList a)
      (hrest : (s.pc t).rest = []) (htemp' : pc.temp = none) (hrest' : pc.rest = [])
      (harena : ∀ a, pc.arena = some a → (s.pc t).arena = some a) (hsane : pc.Sane) :
      Step s t choice (s.goOn t pc e r l)
  | beginArena {e r l} (hpc : s.pc t = .beginArena) :
      Step s t choice ({ s with
        made := s.made + 1
        arenas := Function.update s.arenas s.made true
        infos := Function.update s.infos s.made [] }.goOn t .outside e r l)
  | newTemp {a p pc e r l} (hpc : (s.pc t).arena = some a) (htemp : (s.pc t).temp = none)
      (hlist : ∀ a, s.pc t ≠ .toList a) (hrest : (s.pc t).rest = []) (hp : s.files p = none)
      (htemp' : pc.temp = some (a, p)) (hrest' : pc.rest = []) (harena : pc.arena = some a)
      (hsane : pc.Sane) :
      Step s t choice ({ s with files := s.files.create p a }.goOn t pc e r l)
  | keep {a p pc e r l} (htemp : (s.pc t).temp = some (a, p)) (htemp' : pc.temp = some (a, p))
      (hrest' : pc.rest = []) (harena : pc.arena = some a) (hsane : (s.pc t).Sane → pc.Sane) :
      Step s t choice (s.goOn t pc e r l)
  | move {a p src pc e r l} (htemp : (s.pc t).temp = some (a, p)) (htemp' : pc.temp = some (a, p))
      (hrest' : pc.rest = []) (harena : pc.arena = some a) (hsane : pc.Sane) :
      Step s t choice ({ s with files := s.files.move src p a }.goOn t pc e r l)
  | drop {a p e r l} (htemp : (s.pc t).temp = some (a, p))
      (hdrop : Kept s (.step t choice) → s.MayDrop a p) :
      Step s t choice (s.goOn t .outside e r l)
  | add {a p info temp e r l} (hpc : s.pc t = .tryAdd a p info temp)
      (hopen : Kept s (.step t choice) → info.deletes = true → s.files p ≠ none →
        (temp = false ∨ s.files.OwnedBy p a) → s.Open a) :
      Step s t choice ({ s with
        infos := Function.update s.infos a (s.infos a ++ [(p, info)])
        files := if info.deletes ∧ ¬ temp then s.files.takeOver p a else s.files }.goOn t .outside
          e r l)
  | write {a p pc e r l} (hpc : (s.pc t).arena = some a) (htemp : (s.pc t).temp = none)
      (hlist : ∀ a, s.pc t ≠ .toList a) (hrest : (s.pc t).rest = []) (htemp' : pc.temp = none)
      (hrest' : pc.rest = []) (harena : ∀ a, pc.arena = some a → (s.pc t).arena = some a)
      (hsane : pc.Sane)
      (hwrite : Kept s (.step t choice) → s.files p = none → s.ToBeDeleted a p) :
      Step s t choice ({ s with files := s.files.create p a }.goOn t pc e r l)
  | remove {a e r l} (hpc : s.pc t = .tryRemove a) :
      Step s t choice ({ s with
        arenas := Function.update s.arenas a false }.goOn t (.toList a) e r l)
  | toList {a e r l} (hpc : s.pc t = .toList a) :
      Step s t choice (s.goOn t (.closing a (s.infos a)) e r l)
  | close {a p info rest e r l} (hpc : s.pc t = .closing a ((p, info) :: rest)) :
      Step s t choice ((closeDocument s p info).goOn t (.closing a rest) e r l)

/-! ### The members, place by place -/

/-- A step that the lists of a quiet step describe. -/
theorem quiet_of_eq {s : State τ π} {t : τ} {choice : Choice π} {pc pc' : Pc π} {e r l}
    (hpc : s.pc t = pc) (h : pc.temp = none ∧ (∀ a, pc ≠ .toList a) ∧ pc.rest = [])
    (h' : pc'.temp = none ∧ pc'.rest = [] ∧ (∀ a, pc'.arena = some a → pc.arena = some a) ∧
      pc'.Sane) : Step s t choice (s.goOn t pc' e r l) := by
  subst hpc
  exact .quiet h.1 h.2.1 h.2.2 h'.1 h'.2.1 h'.2.2.1 h'.2.2.2

omit [DecidableEq π] in
/-- The place after the creation of a temporary file. -/
theorem Purpose.afterTemp_spec (a : Nat) (p : π) (name : String) (purpose : Purpose π) :
    (purpose.afterTemp a p name).temp = some (a, p) ∧ (purpose.afterTemp a p name).rest = [] ∧
      (purpose.afterTemp a p name).arena = some a ∧ (purpose.afterTemp a p name).Sane := by
  cases purpose with
  | lazy | copy => exact ⟨rfl, rfl, rfl, rfl⟩
  | move | stream => exact ⟨rfl, rfl, rfl, trivial⟩

section Members

variable {host : Host π} {s s' : State τ π} {t : τ} {choice : Choice π} {a : Nat} {path : π}

/-- A call ends in a place without a file in hand. -/
theorem leave_step {pc : Pc π} {result : Result π} (hpc : s.pc t = pc)
    (hq : pc.temp = none ∧ (∀ a, pc ≠ .toList a) ∧ pc.rest = []) :
    Step s t choice (s.leave t result) :=
  quiet_of_eq hpc hq ⟨rfl, rfl, nofun, trivial⟩

theorem goto_step {pc pc' : Pc π} (hpc : s.pc t = pc)
    (hq : pc.temp = none ∧ (∀ a, pc ≠ .toList a) ∧ pc.rest = [])
    (hq' : pc'.temp = none ∧ pc'.rest = [] ∧ (∀ a, pc'.arena = some a → pc.arena = some a) ∧
      pc'.Sane) : Step s t choice (s.goto t pc') :=
  quiet_of_eq hpc hq hq'

theorem checkFile_step {filePath : π} {mode : FileUsingMode} {deleteSourceFile : Bool}
    {fileName : Option String}
    (hpc : s.pc t = .checkFile a filePath mode deleteSourceFile fileName) :
    Step s t choice (checkFile host s t a filePath mode deleteSourceFile fileName) := by
  have hq : (Pc.checkFile a filePath mode deleteSourceFile fileName).temp = none ∧
      (∀ b, Pc.checkFile a filePath mode deleteSourceFile fileName ≠ .toList b) ∧
      (Pc.checkFile a filePath mode deleteSourceFile fileName).rest = [] := ⟨rfl, nofun, rfl⟩
  unfold checkFile
  dsimp only
  split
  · exact leave_step hpc hq
  · split
    · exact leave_step hpc hq
    · split
      · exact goto_step hpc hq ⟨rfl, rfl, fun _ h => h, trivial⟩
      · exact goto_step hpc hq ⟨rfl, rfl, fun _ h => h, trivial⟩

theorem newTempFile_step {purpose : Purpose π} {name : String}
    (hpc : s.pc t = .newTempFile a purpose name) (h : threadStep host s t choice = some s') :
    Step s t choice s' := by
  simp only [threadStep, hpc] at h
  split at h
  · cases h
    exact leave_step hpc ⟨rfl, nofun, rfl⟩
  · split at h
    · cases h
    · next hfree =>
      cases h
      have hnone : s.files choice.temp = none := by simpa using hfree
      obtain ⟨htemp, hrest, harena, hsane⟩ := Purpose.afterTemp_spec a choice.temp name purpose
      exact .newTemp (by rw [hpc]; rfl) (by rw [hpc]; rfl) (by rw [hpc]; nofun) (by rw [hpc]; rfl)
        hnone htemp hrest harena hsane

theorem fill_step {purpose : Purpose π} {name : String} (hpc : s.pc t = .fill a path purpose name)
    (h : threadStep host s t choice = some s') : Step s t choice s' := by
  have htemp : (s.pc t).temp = some (a, path) := by rw [hpc]; rfl
  have hsane : (Pc.getArenaInfo a path (purpose.info name) true).Sane := by cases purpose <;> rfl
  simp only [threadStep, hpc] at h
  split at h
  · next hfails =>
    cases h
    refine .drop htemp fun hkept => ?_
    simp only [Kept, hpc] at hkept
    exact hkept (.inl hfails)
  · split at h
    · next filePath =>
      split at h
      · next hnone =>
        cases h
        refine .drop htemp fun hkept => ?_
        simp only [Kept, hpc] at hkept
        exact hkept (.inr ⟨filePath, rfl, by simpa using hnone⟩)
      · cases h
        exact .move htemp rfl rfl rfl hsane
    · cases h
      exact .keep htemp rfl rfl rfl fun _ => hsane

theorem getArenaInfo_step {info : DocumentInfo π} {temp : Bool}
    (hpc : s.pc t = .getArenaInfo a path info temp) (h : threadStep host s t choice = some s') :
    Step s t choice s' := by
  simp only [threadStep, hpc] at h
  cases temp with
  | false =>
    split at h
    · cases h
      exact goto_step hpc ⟨rfl, nofun, rfl⟩ ⟨rfl, rfl, fun _ h => h, trivial⟩
    · cases h
      exact leave_step hpc ⟨rfl, nofun, rfl⟩
  | true =>
    have htemp : (s.pc t).temp = some (a, path) := by rw [hpc]; rfl
    split at h
    · cases h
      exact .keep htemp rfl rfl rfl fun hsane => by rwa [hpc] at hsane
    · next harena =>
      cases h
      refine .drop htemp fun hkept => ?_
      simp only [Kept, hpc] at hkept
      exact hkept (by simpa using harena)

theorem tryAdd_step {info : DocumentInfo π} {temp : Bool} (hpc : s.pc t = .tryAdd a path info temp) :
    Step s t choice (tryAdd s t a path info temp) := by
  unfold tryAdd
  split
  · next info' hlookup =>
    cases temp with
    | false => exact leave_step hpc ⟨rfl, nofun, rfl⟩
    | true =>
      refine .drop (a := a) (p := path) (by rw [hpc]; rfl) fun hkept => ?_
      simp only [Kept, hpc, hlookup] at hkept
      exact hkept trivial
  · next hlookup =>
    refine .add hpc fun hkept => ?_
    simp only [Kept, hpc, hlookup] at hkept
    exact hkept

theorem findArena_step (hpc : s.pc t = .findArena a path)
    (h : threadStep host s t choice = some s') : Step s t choice s' := by
  simp only [threadStep, hpc] at h
  split at h
  · cases h
    exact goto_step hpc ⟨rfl, nofun, rfl⟩ ⟨rfl, rfl, fun _ h => h, trivial⟩
  · cases h
    exact leave_step hpc ⟨rfl, nofun, rfl⟩

theorem findDocument_step (hpc : s.pc t = .findDocument a path)
    (h : threadStep host s t choice = some s') : Step s t choice s' := by
  simp only [threadStep, hpc] at h
  split at h
  · cases h
    exact leave_step hpc ⟨rfl, nofun, rfl⟩
  · split at h
    · cases h
      exact goto_step hpc ⟨rfl, nofun, rfl⟩ ⟨rfl, rfl, fun _ h => h, trivial⟩
    · cases h
      exact goto_step hpc ⟨rfl, nofun, rfl⟩ ⟨rfl, rfl, fun _ h => h, trivial⟩

/-- The provider writes the file, or throws before. -/
theorem prepare_custom_step (hpc : s.pc t = .prepare a path .custom)
    (h : threadStep host s t choice = some s') : Step s t choice s' := by
  have hwrite : ∀ {pc : Pc π} {e r l}, choice.creates = true → pc.temp = none → pc.rest = [] →
      (∀ b, pc.arena = some b → some a = some b) → pc.Sane →
      Step s t choice ({ s with files := s.files.create path a }.goOn t pc e r l) := by
    intro pc e r l hcreates htemp hrest harena hsane
    refine .write (by rw [hpc]; rfl) (by rw [hpc]; rfl) (by rw [hpc]; nofun) (by rw [hpc]; rfl)
      htemp hrest (by rw [hpc]; exact harena) hsane fun hkept => ?_
    simp only [Kept, hpc] at hkept
    exact hkept hcreates
  simp only [threadStep, hpc] at h
  split at h
  · cases h
    split
    · next hcreates => exact hwrite hcreates rfl rfl nofun trivial
    · exact leave_step hpc ⟨rfl, nofun, rfl⟩
  · cases h
    split
    · next hcreates => exact hwrite hcreates rfl rfl (fun _ h => h) trivial
    · exact goto_step hpc ⟨rfl, nofun, rfl⟩ ⟨rfl, rfl, fun _ h => h, trivial⟩

theorem prepare_copy_step {filePath : π} (hpc : s.pc t = .prepare a path (.copy filePath))
    (h : threadStep host s t choice = some s') : Step s t choice s' := by
  simp only [threadStep, hpc] at h
  cases h
  refine goto_step hpc ⟨rfl, nofun, rfl⟩ ?_
  split
  · exact ⟨rfl, rfl, fun _ h => h, trivial⟩
  · exact ⟨rfl, rfl, fun _ h => h, trivial⟩

theorem prepareOnce_step {filePath : π} (hpc : s.pc t = .prepareOnce a path filePath)
    (h : threadStep host s t choice = some s') : Step s t choice s' := by
  simp only [threadStep, hpc] at h
  split at h
  · cases h
    exact leave_step hpc ⟨rfl, nofun, rfl⟩
  · next hcopies =>
    cases h
    push Not at hcopies
    obtain ⟨hfails, hsource, -⟩ := hcopies
    refine .write (by rw [hpc]; rfl) (by rw [hpc]; rfl) (by rw [hpc]; nofun) (by rw [hpc]; rfl)
      rfl rfl (by rw [hpc]; exact fun _ h => h) trivial fun hkept => ?_
    simp only [Kept, hpc] at hkept
    exact hkept (by simpa using hfails) (by simpa using hsource)

theorem openFile_step (hpc : s.pc t = .openFile a path) (h : threadStep host s t choice = some s') :
    Step s t choice s' := by
  simp only [threadStep, hpc] at h
  split at h
  · cases h
    exact leave_step hpc ⟨rfl, nofun, rfl⟩
  · cases h
    exact leave_step hpc ⟨rfl, nofun, rfl⟩

/-- The second thread that disposes of an arena finds `_endArena` null. -/
theorem clearEndArena_step {endArena : Bool} (hpc : s.pc t = .clearEndArena a endArena)
    (h : threadStep host s t choice = some s') : Step s t choice s' := by
  simp only [threadStep, hpc] at h
  cases h
  split
  · exact quiet_of_eq hpc ⟨rfl, nofun, rfl⟩ ⟨rfl, rfl, fun _ h => h, trivial⟩
  · exact quiet_of_eq hpc ⟨rfl, nofun, rfl⟩ ⟨rfl, rfl, nofun, trivial⟩

theorem tryRemove_step (hpc : s.pc t = .tryRemove a) (h : threadStep host s t choice = some s') :
    Step s t choice s' := by
  simp only [threadStep, hpc] at h
  split at h
  · cases h
    exact .remove hpc
  · cases h
    exact leave_step hpc ⟨rfl, nofun, rfl⟩

/-- **Every step of a thread is in the list.** -/
theorem threadStep_step (h : threadStep host s t choice = some s') : Step s t choice s' := by
  cases hpc : s.pc t with
  | outside => simp only [threadStep, hpc, reduceCtorEq] at h
  | beginArena =>
    simp only [threadStep, hpc] at h
    cases h
    exact .beginArena hpc
  | checkFile a filePath mode deleteSourceFile fileName =>
    simp only [threadStep, hpc] at h
    cases h
    exact checkFile_step hpc
  | newTempFile a purpose name => exact newTempFile_step hpc h
  | fill a path purpose name => exact fill_step hpc h
  | getArenaInfo a path info temp => exact getArenaInfo_step hpc h
  | tryAdd a path info temp =>
    simp only [threadStep, hpc] at h
    cases h
    exact tryAdd_step hpc
  | findArena a path => exact findArena_step hpc h
  | findDocument a path => exact findDocument_step hpc h
  | prepare a path provider =>
    cases provider with
    | custom => exact prepare_custom_step hpc h
    | copy filePath => exact prepare_copy_step hpc h
  | prepareOnce a path filePath => exact prepareOnce_step hpc h
  | openFile a path => exact openFile_step hpc h
  | readEndArena a =>
    simp only [threadStep, hpc] at h
    cases h
    exact goto_step hpc ⟨rfl, nofun, rfl⟩ ⟨rfl, rfl, fun _ h => h, trivial⟩
  | clearEndArena a endArena => exact clearEndArena_step hpc h
  | tryRemove a => exact tryRemove_step hpc h
  | toList a =>
    simp only [threadStep, hpc] at h
    cases h
    exact .toList hpc
  | closing a rest =>
    cases rest with
    | nil =>
      simp only [threadStep, hpc] at h
      cases h
      exact leave_step hpc ⟨rfl, nofun, rfl⟩
    | cons document rest =>
      simp only [threadStep, hpc] at h
      cases h
      exact .close hpc

end Members

end Garbage.ContentManager
