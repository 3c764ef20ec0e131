import Garbage.ContentManager.Steps

/-!
# Files that nobody deletes

Whatever the run, nothing is deleted that nobody owns: the paths of the documents
to be deleted are claimed, and no step ends that (`Safe`).  A run whose steps are
`Kept` loses no file (`Tracked`), so once an arena is disposed of and the calls
for it have ended, it owns none.
-/

namespace Garbage.ContentManager

open Foundation (Machine OwnedFiles)

variable {τ π : Type} [DecidableEq π] [DecidableEq τ]

/-! ### Nothing strays -/

omit [DecidableEq π] [DecidableEq τ] in
theorem Pc.arena_of_temp {pc : Pc π} {a : Nat} {p : π} (h : pc.temp = some (a, p)) :
    pc.arena = some a := by
  unfold Pc.temp at h
  split at h <;> cases h <;> rfl

/-- A document to be deleted, or one in hand, has the path. -/
def State.Marked (s : State τ π) (p : π) : Prop :=
  (∃ a info, (p, info) ∈ s.infos a ∧ info.deletes = true) ∨
    (∃ t info, (p, info) ∈ (s.pc t).rest ∧ info.deletes = true) ∨
    ∃ t a, (s.pc t).temp = some (a, p)

/-- What holds in every reachable state. -/
structure Safe (s : State τ π) : Prop where
  arena_lt : ∀ t a, (s.pc t).arena = some a → a < s.made
  open_lt : ∀ a, s.arenas a = true → a < s.made
  sane : ∀ t, (s.pc t).Sane
  claimed : ∀ p, s.Marked p → s.files.Claimed p
  notStrayed : s.strayed = false

/-- What holds while no file is lost. -/
structure Tracked (s : State τ π) : Prop where
  safe : Safe s
  tracked : ∀ a p, s.files.OwnedBy p a → s.ToBeDeleted a p ∨ s.InHand a p

variable {s s' : State τ π} {t : τ} {choice : Choice π}

/-- No step takes its owners from a file that stays. -/
theorem Step.claimed {p : π} (h : Step s t choice s') (hp : s.files.Claimed p) :
    s'.files.Claimed p := by
  cases h with
  | quiet | beginArena | keep | drop | remove | toList => exact hp
  | newTemp | write => exact hp.create
  | move => exact hp.move
  | add =>
    dsimp only [State.goOn]
    split
    · exact hp.takeOver
    · exact hp
  | close =>
    dsimp only [State.goOn, closeDocument]
    split
    · exact hp.delete
    · exact hp

section GoOn

omit [DecidableEq π]

variable {pc : Pc π} {e : Nat → Bool} {r : Nat → π → Bool} {l : τ → Option (Result π)}

@[simp] theorem goOn_self : (s.goOn t pc e r l).pc t = pc := Function.update_self ..

theorem goOn_ne {u : τ} (h : u ≠ t) : (s.goOn t pc e r l).pc u = s.pc u :=
  Function.update_of_ne h ..

/-- What the thread that goes on marks, and what was marked before. -/
theorem marked_of_goOn {p : π} (h : (s.goOn t pc e r l).Marked p) :
    s.Marked p ∨ (∃ info, (p, info) ∈ pc.rest ∧ info.deletes = true) ∨
      ∃ a, pc.temp = some (a, p) := by
  rcases h with hinfos | ⟨u, info, hrest, hdeletes⟩ | ⟨u, a, htemp⟩
  · exact .inl (.inl hinfos)
  · by_cases hut : u = t
    · rw [hut, goOn_self] at hrest
      exact .inr (.inl ⟨info, hrest, hdeletes⟩)
    · rw [goOn_ne hut] at hrest
      exact .inl (.inr (.inl ⟨u, info, hrest, hdeletes⟩))
  · by_cases hut : u = t
    · rw [hut, goOn_self] at htemp
      exact .inr (.inr ⟨a, htemp⟩)
    · rw [goOn_ne hut] at htemp
      exact .inl (.inr (.inr ⟨u, a, htemp⟩))

/-- A thread that goes on with nothing marks nothing. -/
theorem marked_of_goOn_nothing {p : π} (hrest : pc.rest = []) (htemp : pc.temp = none)
    (h : (s.goOn t pc e r l).Marked p) : s.Marked p := by
  rcases marked_of_goOn h with h | ⟨info, h, -⟩ | ⟨a, h⟩
  · exact h
  · rw [hrest] at h
    cases h
  · cases htemp.symm.trans h

end GoOn

section Marked

variable {e : Nat → Bool} {r : Nat → π → Bool} {l : τ → Option (Result π)} {a : Nat} {p q : π}
  {info : DocumentInfo π}

omit [DecidableEq π] in
/-- A new arena has no documents. -/
theorem marked_of_beginArena (hp : ({ s with
    made := s.made + 1
    arenas := Function.update s.arenas s.made true
    infos := Function.update s.infos s.made [] }.goOn t .outside e r l).Marked p) :
    s.Marked p := by
  rcases marked_of_goOn_nothing rfl rfl hp with ⟨a, info, hinfo, hdeletes⟩ | hrest | htemp
  · by_cases ha : a = s.made
    · dsimp only at hinfo
      rw [ha, Function.update_self] at hinfo
      cases hinfo
    · dsimp only at hinfo
      rw [Function.update_of_ne ha] at hinfo
      exact .inl ⟨a, info, hinfo, hdeletes⟩
  · exact .inr (.inl hrest)
  · exact .inr (.inr htemp)

/-- A document that is added had a temporary file, or takes over the file of the caller. -/
theorem marked_of_add {temp : Bool} (hpc : s.pc t = .tryAdd a q info temp)
    (hp : ({ s with
      infos := Function.update s.infos a (s.infos a ++ [(q, info)])
      files := if info.deletes ∧ ¬ temp then s.files.takeOver q a else s.files }.goOn t .outside
        e r l).Marked p) :
    s.Marked p ∨
      (if info.deletes ∧ ¬ temp then s.files.takeOver q a else s.files).Claimed p := by
  rcases marked_of_goOn_nothing rfl rfl hp with ⟨b, info', hinfo, hdeletes⟩ | hrest | htemp
  · dsimp only at hinfo
    by_cases hb : b = a
    · rw [hb, Function.update_self] at hinfo
      rcases List.mem_append.mp hinfo with hinfo | hinfo
      · exact .inl (.inl ⟨a, info', hinfo, hdeletes⟩)
      · cases List.mem_singleton.mp hinfo
        cases temp with
        | true => exact .inl (.inr (.inr ⟨t, a, by rw [hpc]; rfl⟩))
        | false =>
          refine .inr ?_
          rw [if_pos ⟨hdeletes, by decide⟩]
          exact OwnedFiles.claimed_takeOver
    · rw [Function.update_of_ne hb] at hinfo
      exact .inl (.inl ⟨b, info', hinfo, hdeletes⟩)
  · exact .inl (.inr (.inl hrest))
  · exact .inl (.inr (.inr htemp))

theorem marked_of_close {rest : List (π × DocumentInfo π)}
    (hpc : s.pc t = .closing a ((q, info) :: rest))
    (hp : ((closeDocument s q info).goOn t (.closing a rest) e r l).Marked p) : s.Marked p := by
  rcases marked_of_goOn hp with hp | ⟨info', hp, hdeletes⟩ | ⟨b, hb⟩
  · unfold closeDocument at hp
    split at hp <;> exact hp
  · refine .inr (.inl ⟨t, info', ?_, hdeletes⟩)
    rw [hpc]
    exact List.mem_cons_of_mem _ hp
  · cases hb

end Marked

/-- The path that a step marks is claimed. -/
theorem Step.marked {p : π} (h : Step s t choice s') (hp : s'.Marked p) :
    s.Marked p ∨ s'.files.Claimed p := by
  cases h with
  | quiet htemp hlist hrest htemp' hrest' => exact .inl (marked_of_goOn_nothing hrest' htemp' hp)
  | beginArena hpc => exact .inl (marked_of_beginArena hp)
  | newTemp hpc htemp hlist hrest hq htemp' hrest' =>
    rcases marked_of_goOn hp with hp | ⟨info, hp, -⟩ | ⟨b, hb⟩
    · exact .inl hp
    · rw [hrest'] at hp
      cases hp
    · cases htemp'.symm.trans hb
      exact .inr (OwnedFiles.claimed_of_none hq).create
  | @keep a q pc e r l htemp htemp' hrest' | @move a q src pc e r l htemp htemp' hrest' =>
    rcases marked_of_goOn hp with hp | ⟨info, hp, -⟩ | ⟨b, hb⟩
    · exact .inl hp
    · rw [hrest'] at hp
      cases hp
    · cases htemp'.symm.trans hb
      exact .inl (.inr (.inr ⟨t, a, htemp⟩))
  | drop htemp => exact .inl (marked_of_goOn_nothing rfl rfl hp)
  | add hpc => exact marked_of_add hpc hp
  | write hpc htemp hlist hrest htemp' hrest' =>
    have hmarked := marked_of_goOn_nothing hrest' htemp' hp
    exact .inl hmarked
  | remove =>
    have hmarked := marked_of_goOn_nothing rfl rfl hp
    exact .inl hmarked
  | @toList a =>
    rcases marked_of_goOn hp with hp | ⟨info, hp, hdeletes⟩ | ⟨b, hb⟩
    · exact .inl hp
    · exact .inl (.inl ⟨a, info, hp, hdeletes⟩)
    · cases hb
  | close hpc => exact .inl (marked_of_close hpc hp)

/-- A thread stays with the arena of its call, and with the kind of its document. -/
theorem Step.pc (h : Step s t choice s') : ∃ pc : Pc π, s'.pc = Function.update s.pc t pc ∧
    (∀ a, pc.arena = some a → (s.pc t).arena = some a) ∧ ((s.pc t).Sane → pc.Sane) := by
  cases h with
  | quiet _ _ _ _ _ harena hsane => exact ⟨_, rfl, harena, fun _ => hsane⟩
  | beginArena | drop | add => exact ⟨_, rfl, nofun, fun _ => trivial⟩
  | newTemp hpc _ _ _ _ _ _ harena hsane =>
    exact ⟨_, rfl, fun b hb => hpc.trans (harena.symm.trans hb), fun _ => hsane⟩
  | keep htemp _ _ harena hsane =>
    exact ⟨_, rfl, fun b hb => (Pc.arena_of_temp htemp).trans (harena.symm.trans hb), hsane⟩
  | move htemp _ _ harena hsane =>
    exact ⟨_, rfl, fun b hb => (Pc.arena_of_temp htemp).trans (harena.symm.trans hb),
      fun _ => hsane⟩
  | write _ _ _ _ _ _ harena hsane => exact ⟨_, rfl, harena, fun _ => hsane⟩
  | @remove a e r l hpc =>
    refine ⟨.toList a, rfl, fun b hb => ?_, fun _ => trivial⟩
    rw [hpc]
    exact hb
  | @toList a e r l hpc =>
    refine ⟨.closing a (s.infos a), rfl, fun b hb => ?_, fun _ => trivial⟩
    rw [hpc]
    exact hb
  | @close a p info rest e r l hpc =>
    refine ⟨.closing a rest, ?_, fun b hb => ?_, fun _ => trivial⟩
    · dsimp only [State.goOn, closeDocument]
      split <;> rfl
    · rw [hpc]
      exact hb

theorem Step.made_le (h : Step s t choice s') : s.made ≤ s'.made := by
  cases h with
  | beginArena => exact Nat.le_succ _
  | close =>
    dsimp only [State.goOn, closeDocument]
    split <;> exact Nat.le_refl _
  | _ => exact Nat.le_refl _

/-- Only `BeginArena` adds an arena. -/
theorem Step.arenas (h : Step s t choice s') {a : Nat} (ha : s'.arenas a = true) :
    s.arenas a = true ∨ s.made ≤ a ∧ a < s'.made := by
  cases h with
  | beginArena =>
    dsimp only [State.goOn] at ha
    by_cases hm : a = s.made
    · exact .inr ⟨Nat.le_of_eq hm.symm, hm ▸ Nat.lt_succ_self _⟩
    · rw [Function.update_of_ne hm] at ha
      exact .inl ha
  | @remove b =>
    dsimp only [State.goOn] at ha
    by_cases hb : a = b
    · rw [hb, Function.update_self] at ha
      cases ha
    · rw [Function.update_of_ne hb] at ha
      exact .inl ha
  | close =>
    dsimp only [State.goOn, closeDocument] at ha
    split at ha <;> exact .inl ha
  | _ => exact .inl ha

theorem Step.safe (h : Step s t choice s') (hs : Safe s) : Safe s' where
  arena_lt u a hu := by
    obtain ⟨pc, hpc, harena, -⟩ := h.pc
    refine Nat.lt_of_lt_of_le ?_ h.made_le
    rw [hpc] at hu
    by_cases hut : u = t
    · rw [hut, Function.update_self] at hu
      exact hs.arena_lt t a (harena a hu)
    · rw [Function.update_of_ne hut] at hu
      exact hs.arena_lt u a hu
  open_lt a ha := by
    rcases h.arenas ha with ha | ⟨-, ha⟩
    · exact Nat.lt_of_lt_of_le (hs.open_lt a ha) h.made_le
    · exact ha
  sane u := by
    obtain ⟨pc, hpc, -, hsane⟩ := h.pc
    rw [hpc]
    by_cases hut : u = t
    · rw [hut, Function.update_self]
      exact hsane (hs.sane t)
    · rw [Function.update_of_ne hut]
      exact hs.sane u
  claimed p hp := by
    rcases h.marked hp with hp | hp
    · exact h.claimed (hs.claimed p hp)
    · exact hp
  notStrayed := by
    cases h with
    | @close a p info rest e r l hpc =>
      dsimp only [State.goOn, closeDocument]
      split
      · next hdeletes =>
        have hclaimed : s.files.Claimed p := by
          refine hs.claimed p (.inr (.inl ⟨t, info, ?_, hdeletes⟩))
          rw [hpc]
          exact List.mem_cons_self
        have hne : s.files p ≠ some [] := hclaimed
        rw [hs.notStrayed, Bool.false_or]
        simpa using hne
      · exact hs.notStrayed
    | _ => exact hs.notStrayed

/-! ### Nothing is lost -/

section Stays

omit [DecidableEq π]

variable {a : Nat} {p : π} {pc : Pc π}

theorem State.Open.stays (h : s.Open a) (hpc : s'.pc = Function.update s.pc t pc)
    (hlist : s.pc t ≠ .toList a) (harenas : s.arenas a = true → s'.Open a) : s'.Open a := by
  rcases h with h | ⟨u, hu⟩
  · exact harenas h
  · have hut : u ≠ t := by
      rintro rfl
      exact hlist hu
    refine .inr ⟨u, ?_⟩
    rw [hpc, Function.update_of_ne hut]
    exact hu

/-- The closings go on. -/
theorem State.ToBeDeleted.stays (h : s.ToBeDeleted a p) (hpc : s'.pc = Function.update s.pc t pc)
    (hlist : ∀ b, s.pc t ≠ .toList b) (hrest : (s.pc t).rest = [])
    (hinfos : ∀ x ∈ s.infos a, x ∈ s'.infos a) (harenas : s.arenas a = true → s'.Open a) :
    s'.ToBeDeleted a p := by
  obtain ⟨info, hdeletes, ⟨hinfo, hopen⟩ | ⟨u, rest, hu, hinfo⟩⟩ := h
  · exact ⟨info, hdeletes, .inl ⟨hinfos _ hinfo, hopen.stays hpc (hlist a) harenas⟩⟩
  · have hut : u ≠ t := by
      rintro rfl
      have hnil : rest = [] := by
        rw [hu] at hrest
        exact hrest
      rw [hnil] at hinfo
      cases hinfo
    refine ⟨info, hdeletes, .inr ⟨u, rest, ?_, hinfo⟩⟩
    rw [hpc, Function.update_of_ne hut]
    exact hu

/-- The threads keep what they have in hand. -/
theorem State.InHand.stays (h : s.InHand a p) (hpc : s'.pc = Function.update s.pc t pc)
    (htemp : (s.pc t).temp = some (a, p) → pc.temp = some (a, p)) : s'.InHand a p := by
  obtain ⟨u, hu⟩ := h
  refine ⟨u, ?_⟩
  rw [hpc]
  by_cases hut : u = t
  · rw [hut, Function.update_self]
    exact htemp (hut ▸ hu)
  · rw [Function.update_of_ne hut]
    exact hu

omit [DecidableEq τ] in
/-- A file that is looked after belongs to an arena that was begun. -/
theorem Safe.lt_made (hs : Safe s) (h : s.ToBeDeleted a p ∨ s.InHand a p) : a < s.made := by
  rcases h with ⟨info, -, ⟨-, hopen | ⟨u, hu⟩⟩ | ⟨u, rest, hu, -⟩⟩ | ⟨u, hu⟩
  · exact hs.open_lt a hopen
  · exact hs.arena_lt u a (by rw [hu]; rfl)
  · exact hs.arena_lt u a (by rw [hu]; rfl)
  · exact hs.arena_lt u a (Pc.arena_of_temp hu)

omit [DecidableEq τ] in
/-- A thread with a temporary file closes no arena. -/
theorem Pc.not_closing_of_temp {x : Nat × π} (h : pc.temp = some x) :
    (∀ b, pc ≠ .toList b) ∧ pc.rest = [] := by
  unfold Pc.temp at h
  split at h <;> first | exact ⟨nofun, rfl⟩ | cases h

/-- A file stays looked after while the arenas and their dictionaries stay. -/
theorem Tracked.stays (hs : Tracked s) (hp : s.files.OwnedBy p a)
    (hpc : s'.pc = Function.update s.pc t pc) (hlist : ∀ b, s.pc t ≠ .toList b)
    (hrest : (s.pc t).rest = []) (hinfos : s'.infos = s.infos) (harenas : s'.arenas = s.arenas)
    (htemp : (s.pc t).temp = some (a, p) → pc.temp = some (a, p)) :
    s'.ToBeDeleted a p ∨ s'.InHand a p := by
  refine (hs.tracked a p hp).imp (fun hd => ?_) (fun hi => hi.stays hpc htemp)
  refine hd.stays hpc hlist hrest (fun x hx => ?_) fun hopen => .inl ?_
  · rw [hinfos]
    exact hx
  · rw [harenas]
    exact hopen

end Stays

section CloseDocument

omit [DecidableEq τ]

@[simp] theorem closeDocument_infos (p : π) (info : DocumentInfo π) :
    (closeDocument s p info).infos = s.infos := by
  unfold closeDocument
  split <;> rfl

@[simp] theorem closeDocument_arenas (p : π) (info : DocumentInfo π) :
    (closeDocument s p info).arenas = s.arenas := by
  unfold closeDocument
  split <;> rfl

@[simp] theorem closeDocument_pc (p : π) (info : DocumentInfo π) :
    (closeDocument s p info).pc = s.pc := by
  unfold closeDocument
  split <;> rfl

/-- The file of a document that is to be deleted is gone, the others are not. -/
theorem ownedBy_closeDocument {p q : π} {a : Nat} {info : DocumentInfo π}
    (h : (closeDocument s q info).files.OwnedBy p a) :
    s.files.OwnedBy p a ∧ (info.deletes = true → p ≠ q) := by
  unfold closeDocument at h
  split at h
  · obtain ⟨hne, hp⟩ := OwnedFiles.ownedBy_delete h
    exact ⟨hp, fun _ => hne⟩
  · next hdeletes => exact ⟨h, fun hd => absurd hd hdeletes⟩

end CloseDocument

/-- The document that a thread adds is looked after. -/
theorem tracked_add {a b : Nat} {p q : π} {info : DocumentInfo π} {temp : Bool}
    (hs : Tracked s) (hpc : s.pc t = .tryAdd b q info temp)
    (hpc' : s'.pc = Function.update s.pc t .outside)
    (hinfos : s'.infos = Function.update s.infos b (s.infos b ++ [(q, info)]))
    (harenas : s'.arenas = s.arenas)
    (hfiles : s'.files = if info.deletes ∧ ¬ temp then s.files.takeOver q b else s.files)
    (hopen : info.deletes = true → s.files q ≠ none → (temp = false ∨ s.files.OwnedBy q b) →
      s.Open b)
    (hp : s'.files.OwnedBy p a) : s'.ToBeDeleted a p ∨ s'.InHand a p := by
  have hlist : ∀ c, s.pc t ≠ .toList c := by
    rw [hpc]
    nofun
  have hnew : info.deletes = true → s.Open b → s'.ToBeDeleted b q := by
    intro hdeletes hopen
    refine ⟨info, hdeletes, .inl ⟨?_, hopen.stays hpc' (hlist b) fun h => .inl ?_⟩⟩
    · rw [hinfos, Function.update_self]
      exact List.mem_append_right _ List.mem_cons_self
    · rw [harenas]
      exact h
  have hcases : s.files.OwnedBy p a ∨
      (p = q ∧ a = b ∧ s.files q ≠ none ∧ info.deletes = true ∧ temp = false) := by
    rw [hfiles] at hp
    split at hp
    · next hd =>
      rcases OwnedFiles.ownedBy_takeOver hp with hp | ⟨hpq, hab, hne⟩
      · exact .inl hp
      · exact .inr ⟨hpq, hab, hne, hd.1, by simpa using hd.2⟩
    · exact .inl hp
  rcases hcases with hp | ⟨rfl, rfl, hne, hdeletes, htemp⟩
  · rcases hs.tracked a p hp with hd | ⟨u, hu⟩
    · refine .inl (hd.stays hpc' hlist (by rw [hpc]; rfl) (fun x hx => ?_) fun h => .inl ?_)
      · rw [hinfos]
        by_cases hab : a = b
        · subst hab
          rw [Function.update_self]
          exact List.mem_append_left _ hx
        · rw [Function.update_of_ne hab]
          exact hx
      · rw [harenas]
        exact h
    · by_cases hut : u = t
      · subst hut
        have hsane := hs.safe.sane u
        rw [hpc] at hu hsane
        cases temp with
        | false => cases hu
        | true =>
          cases hu
          obtain ⟨owners, hq, hmem⟩ := hp
          exact .inl (hnew hsane (hopen hsane (by rw [hq]; nofun) (.inr ⟨owners, hq, hmem⟩)))
      · refine .inr ⟨u, ?_⟩
        rw [hpc', Function.update_of_ne hut]
        exact hu
  · exact .inl (hnew hdeletes (hopen hdeletes hne (.inl htemp)))

section Kinds

variable {a b : Nat} {p q : π} {pc : Pc π} {e : Nat → Bool} {r : Nat → π → Bool}
  {l : τ → Option (Result π)}

omit [DecidableEq π] in
theorem tracked_beginArena (hs : Tracked s) (hpc : s.pc t = .beginArena)
    (hp : s.files.OwnedBy p a) (hpc' : s'.pc = Function.update s.pc t .outside)
    (harenas : s'.arenas = Function.update s.arenas s.made true)
    (hinfos : s'.infos = Function.update s.infos s.made []) :
    s'.ToBeDeleted a p ∨ s'.InHand a p := by
  have hold := hs.tracked a p hp
  have ha : a ≠ s.made := Nat.ne_of_lt (hs.safe.lt_made hold)
  refine hold.imp (fun hd => ?_) (fun hi => ?_)
  · refine hd.stays hpc' (by rw [hpc]; nofun) (by rw [hpc]; rfl) (fun x hx => ?_) (fun hopen => ?_)
    · rwa [hinfos, Function.update_of_ne ha]
    · exact .inl (by rwa [harenas, Function.update_of_ne ha])
  · exact hi.stays hpc' fun h => by rw [hpc] at h; cases h

/-- A temporary file comes into the hand of the thread. -/
theorem tracked_newTemp (hs : Tracked s) (htemp : (s.pc t).temp = none)
    (hlist : ∀ b, s.pc t ≠ .toList b) (hrest : (s.pc t).rest = []) (htemp' : pc.temp = some (b, q))
    (hp : (s.files.create q b).OwnedBy p a) (hpc' : s'.pc = Function.update s.pc t pc)
    (harenas : s'.arenas = s.arenas) (hinfos : s'.infos = s.infos) :
    s'.ToBeDeleted a p ∨ s'.InHand a p := by
  rcases OwnedFiles.ownedBy_create hp with hp | ⟨rfl, rfl, -⟩
  · exact hs.stays hp hpc' hlist hrest hinfos harenas fun h => by cases htemp.symm.trans h
  · exact .inr ⟨t, by rw [hpc', Function.update_self]; exact htemp'⟩

theorem tracked_move {src : π} (hs : Tracked s) (htemp : (s.pc t).temp = some (b, q))
    (htemp' : pc.temp = some (b, q)) (hp : (s.files.move src q b).OwnedBy p a)
    (hpc' : s'.pc = Function.update s.pc t pc) (harenas : s'.arenas = s.arenas)
    (hinfos : s'.infos = s.infos) : s'.ToBeDeleted a p ∨ s'.InHand a p := by
  obtain ⟨hlist, hrest⟩ := Pc.not_closing_of_temp htemp
  rcases OwnedFiles.ownedBy_move hp with ⟨rfl, rfl⟩ | hp
  · exact .inr ⟨t, by rw [hpc', Function.update_self]; exact htemp'⟩
  · exact hs.stays hp hpc' hlist hrest hinfos harenas fun h => htemp'.trans (htemp.symm.trans h)

omit [DecidableEq π] in
/-- What a thread lets go will be deleted. -/
theorem tracked_drop (hs : Tracked s) (htemp : (s.pc t).temp = some (b, q)) (hdrop : s.MayDrop b q)
    (hp : s.files.OwnedBy p a) (hpc' : s'.pc = Function.update s.pc t pc)
    (harenas : s'.arenas = s.arenas) (hinfos : s'.infos = s.infos) :
    s'.ToBeDeleted a p ∨ s'.InHand a p := by
  obtain ⟨hlist, hrest⟩ := Pc.not_closing_of_temp htemp
  by_cases hab : (b, q) = (a, p)
  · cases hab
    refine .inl ((hdrop hp).stays hpc' hlist hrest (fun x hx => ?_) fun hopen => .inl ?_)
    · rwa [hinfos]
    · rwa [harenas]
  · exact hs.stays hp hpc' hlist hrest hinfos harenas fun h =>
      absurd (Option.some.inj (htemp.symm.trans h)) hab

/-- A file that is written is there already, or its arena will still delete it. -/
theorem tracked_write (hs : Tracked s) (htemp : (s.pc t).temp = none)
    (hlist : ∀ b, s.pc t ≠ .toList b) (hrest : (s.pc t).rest = [])
    (hwrite : s.files q = none → s.ToBeDeleted b q) (hp : (s.files.create q b).OwnedBy p a)
    (hpc' : s'.pc = Function.update s.pc t pc) (harenas : s'.arenas = s.arenas)
    (hinfos : s'.infos = s.infos) : s'.ToBeDeleted a p ∨ s'.InHand a p := by
  rcases OwnedFiles.ownedBy_create hp with hp | ⟨rfl, rfl, hnone⟩
  · exact hs.stays hp hpc' hlist hrest hinfos harenas fun h => by cases htemp.symm.trans h
  · refine .inl ((hwrite hnone).stays hpc' hlist hrest (fun x hx => ?_) fun hopen => .inl ?_)
    · rwa [hinfos]
    · rwa [harenas]

omit [DecidableEq π] in
/-- The arena is out of the dictionary, and its snapshot is to come. -/
theorem tracked_remove (hs : Tracked s) (hpc : s.pc t = .tryRemove b) (hp : s.files.OwnedBy p a)
    (hpc' : s'.pc = Function.update s.pc t (.toList b))
    (harenas : s'.arenas = Function.update s.arenas b false) (hinfos : s'.infos = s.infos) :
    s'.ToBeDeleted a p ∨ s'.InHand a p := by
  refine (hs.tracked a p hp).imp (fun hd => ?_) (fun hi => ?_)
  · refine hd.stays hpc' (by rw [hpc]; nofun) (by rw [hpc]; rfl) (fun x hx => ?_) fun hopen => ?_
    · rwa [hinfos]
    · by_cases hab : a = b
      · exact .inr ⟨t, by rw [hab, hpc', Function.update_self]⟩
      · exact .inl (by rwa [harenas, Function.update_of_ne hab])
  · exact hi.stays hpc' fun h => by rw [hpc] at h; cases h

omit [DecidableEq π] in
/-- The documents of the arena are in the snapshot. -/
theorem tracked_toList (hs : Tracked s) (hpc : s.pc t = .toList b) (hp : s.files.OwnedBy p a)
    (hpc' : s'.pc = Function.update s.pc t (.closing b (s.infos b)))
    (harenas : s'.arenas = s.arenas) (hinfos : s'.infos = s.infos) :
    s'.ToBeDeleted a p ∨ s'.InHand a p := by
  refine (hs.tracked a p hp).imp (fun hd => ?_) (fun hi => ?_)
  · obtain ⟨info, hdeletes, ⟨hinfo, hopen⟩ | ⟨u, rest, hu, hinfo⟩⟩ := hd
    · by_cases hab : a = b
      · subst hab
        exact ⟨info, hdeletes, .inr ⟨t, s.infos a, by rw [hpc', Function.update_self], hinfo⟩⟩
      · have hlist : s.pc t ≠ .toList a := by
          rw [hpc]
          intro h
          cases h
          exact hab rfl
        refine ⟨info, hdeletes, .inl ⟨by rwa [hinfos], hopen.stays hpc' hlist fun h => .inl ?_⟩⟩
        rwa [harenas]
    · have hut : u ≠ t := by
        rintro rfl
        cases hpc.symm.trans hu
      refine ⟨info, hdeletes, .inr ⟨u, rest, ?_, hinfo⟩⟩
      rw [hpc', Function.update_of_ne hut]
      exact hu
  · exact hi.stays hpc' fun h => by rw [hpc] at h; cases h

/-- The first document of the snapshot is closed. -/
theorem tracked_close {info : DocumentInfo π} {rest : List (π × DocumentInfo π)} (hs : Tracked s)
    (hpc : s.pc t = .closing b ((q, info) :: rest))
    (hp : (closeDocument s q info).files.OwnedBy p a)
    (hpc' : s'.pc = Function.update s.pc t (.closing b rest)) (harenas : s'.arenas = s.arenas)
    (hinfos : s'.infos = s.infos) : s'.ToBeDeleted a p ∨ s'.InHand a p := by
  obtain ⟨hp, hne⟩ := ownedBy_closeDocument hp
  refine (hs.tracked a p hp).imp (fun hd => ?_) (fun hi => ?_)
  · obtain ⟨info', hdeletes, ⟨hinfo, hopen⟩ | ⟨u, rest', hu, hinfo⟩⟩ := hd
    · refine ⟨info', hdeletes, .inl ⟨by rwa [hinfos], hopen.stays hpc' ?_ fun h => .inl ?_⟩⟩
      · rw [hpc]
        nofun
      · rwa [harenas]
    · by_cases hut : u = t
      · subst hut
        cases hpc.symm.trans hu
        rcases List.mem_cons.mp hinfo with heq | hinfo
        · cases heq
          exact absurd rfl (hne hdeletes)
        · exact ⟨info', hdeletes, .inr ⟨u, rest, by rw [hpc', Function.update_self], hinfo⟩⟩
      · refine ⟨info', hdeletes, .inr ⟨u, rest', ?_, hinfo⟩⟩
        rw [hpc', Function.update_of_ne hut]
        exact hu
  · exact hi.stays hpc' fun h => by rw [hpc] at h; cases h

end Kinds

/-- **The step lemma.**  A step that is `Kept` loses no file. -/
theorem Step.tracked (h : Step s t choice s') (hs : Tracked s) (hkept : Kept s (.step t choice))
    {a : Nat} {p : π} (hp : s'.files.OwnedBy p a) : s'.ToBeDeleted a p ∨ s'.InHand a p := by
  cases h with
  | quiet htemp hlist hrest =>
    exact hs.stays hp rfl hlist hrest rfl rfl fun h => by cases htemp.symm.trans h
  | beginArena hpc => exact tracked_beginArena hs hpc hp rfl rfl rfl
  | newTemp hpc htemp hlist hrest hq htemp' =>
    exact tracked_newTemp hs htemp hlist hrest htemp' hp rfl rfl rfl
  | keep htemp htemp' =>
    obtain ⟨hlist, hrest⟩ := Pc.not_closing_of_temp htemp
    exact hs.stays hp rfl hlist hrest rfl rfl fun h => htemp'.trans (htemp.symm.trans h)
  | move htemp htemp' => exact tracked_move hs htemp htemp' hp rfl rfl rfl
  | drop htemp hdrop => exact tracked_drop hs htemp (hdrop hkept) hp rfl rfl rfl
  | add hpc hopen => exact tracked_add hs hpc rfl rfl rfl rfl (hopen hkept) hp
  | write hpc htemp hlist hrest htemp' hrest' harena hsane hwrite =>
    exact tracked_write hs htemp hlist hrest (hwrite hkept) hp rfl rfl rfl
  | remove hpc => exact tracked_remove hs hpc hp rfl rfl rfl
  | toList hpc => exact tracked_toList hs hpc hp rfl rfl rfl
  | @close b q info rest e r l hpc =>
    refine tracked_close hs hpc hp ?_ (closeDocument_arenas q info) (closeDocument_infos q info)
    rw [State.goOn, closeDocument_pc]

/-! ### Runs -/

variable {host : Host π} {action : Action τ π}

omit [DecidableEq π] in
theorem Member.start_spec (m : Member π) :
    m.start.temp = none ∧ m.start.rest = [] ∧ m.start.Sane := by
  cases m <;> exact ⟨rfl, rfl, trivial⟩

theorem call_eq_some {m : Member π} (hn : next host s (.call t m) = some s') :
    s.pc t = .outside ∧ (∀ a, m.start.arena = some a → a < s.made) ∧
      s' = s.goOn t m.start s.endArena s.prepared s.results := by
  dsimp only [next] at hn
  split at hn
  · next hpc =>
    split at hn <;> cases hn
    next harena => exact ⟨hpc, fun a ha => harena a ha, rfl⟩
  · cases hn

theorem call_safe {m : Member π} (hn : next host s (.call t m) = some s') (hs : Safe s) :
    Safe s' := by
  obtain ⟨hpc, harena, rfl⟩ := call_eq_some hn
  obtain ⟨htemp, hrest, hsane⟩ := m.start_spec
  refine ⟨fun u a hu => ?_, hs.open_lt, fun u => ?_, fun p hp => ?_, hs.notStrayed⟩
  · by_cases hut : u = t
    · rw [hut, goOn_self] at hu
      exact harena a hu
    · rw [goOn_ne hut] at hu
      exact hs.arena_lt u a hu
  · by_cases hut : u = t
    · rw [hut, goOn_self]
      exact hsane
    · rw [goOn_ne hut]
      exact hs.sane u
  · exact hs.claimed p (marked_of_goOn_nothing hrest htemp hp)

theorem next_safe (hn : next host s action = some s') (hs : Safe s) : Safe s' := by
  cases action with
  | call t m => exact call_safe hn hs
  | step t choice => exact (threadStep_step hn).safe hs

theorem next_tracked (hn : next host s action = some s') (hs : Tracked s)
    (hkept : Kept s action) : Tracked s' := by
  refine ⟨next_safe hn hs.safe, fun a p hp => ?_⟩
  cases action with
  | call t m =>
    obtain ⟨hpc, -, rfl⟩ := call_eq_some hn
    exact hs.stays hp rfl (by rw [hpc]; nofun) (by rw [hpc]; rfl) rfl rfl fun h => by
      rw [hpc] at h
      cases h
  | step t choice => exact (threadStep_step hn).tracked hs hkept hp

omit [DecidableEq π] [DecidableEq τ] in
theorem safe_make (present : π → Bool) : Safe (State.make present : State τ π) where
  arena_lt _ _ h := nomatch h
  open_lt _ h := nomatch h
  sane _ := trivial
  claimed p hp := by
    rcases hp with ⟨a, info, hinfo, -⟩ | ⟨t, info, hrest, -⟩ | ⟨t, a, htemp⟩
    · cases hinfo
    · cases hrest
    · cases htemp
  notStrayed := rfl

omit [DecidableEq π] [DecidableEq τ] in
theorem tracked_make (present : π → Bool) : Tracked (State.make present : State τ π) where
  safe := safe_make present
  tracked a p hp := by
    obtain ⟨owners, hp, ha⟩ := hp
    dsimp only [State.make] at hp
    split at hp <;> cases hp
    cases ha

omit [DecidableEq π] [DecidableEq τ] in
/-- Once the calls for an arena have ended, nobody looks after its files. -/
theorem Tracked.noOrphan (hs : Tracked s) : s.NoOrphan := by
  rintro a ⟨-, harena, hpc⟩ p hp
  rcases hs.tracked a p hp with ⟨info, -, ⟨-, hopen | ⟨u, hu⟩⟩ | ⟨u, rest, hu, -⟩⟩ | ⟨u, hu⟩
  · cases harena.symm.trans hopen
  · exact hpc u (by rw [hu]; rfl)
  · exact hpc u (by rw [hu]; rfl)
  · exact hpc u (Pc.arena_of_temp hu)

/-- **No orphan files.**  In every run of any number of threads whose steps are
`Kept`: when an arena is disposed of and the calls for it have ended, it owns no
file any more.  In every run at all, no file is deleted that nobody owned. -/
theorem no_orphan_of_kept (τ π : Type) [DecidableEq τ] [DecidableEq π] (host : Host π) :
    (∀ s, (machine τ π host).ReachableBy Kept s → s.NoOrphan) ∧
      ∀ s, (machine τ π host).Reachable s → s.strayed = false := by
  constructor
  · intro s h
    have htracked : Tracked s := by
      apply h.invariant
      · rintro s ⟨present, rfl⟩
        exact tracked_make present
      · exact fun s a s' hs hkept hn => next_tracked hn hs hkept
    exact htracked.noOrphan
  · intro s h
    have hsafe : Safe s := by
      apply h.invariant
      · rintro s ⟨present, rfl⟩
        exact safe_make present
      · exact fun s a s' hs _ hn => next_safe hn hs
    exact hsafe.notStrayed

/-- An arena takes over the source file `7`, creates the lazy document `1`, writes
it when it is opened, and deletes both files. -/
theorem no_orphan_of_kept_run :
    let steps := fun t n => List.replicate n (Action.step (t : Nat) (Choice.mk (1 : Nat) false true))
    let as : List (Action Nat Nat) := .call 0 .beginArena :: steps 0 1 ++
      .call 0 (.makeDocument 0 7 .autoDetect true none) :: steps 0 3 ++
      .call 1 (.makeLazyDocument 0 "lazy") :: steps 1 3 ++
      .call 1 (.openDocumentStream 0 1) :: steps 1 4 ++ .call 0 (.dispose 0) :: steps 0 7
    ∃ s, (machine Nat Nat ⟨fun _ => false, fun _ => "a"⟩).run (State.make (· == 7)) as = some s ∧
      s.NoOrphan ∧ s.files 7 = none ∧ s.files 1 = none := by
  intro steps as
  have hsteps : (machine Nat Nat ⟨fun _ => false, fun _ => "a"⟩).AllSteps Kept
      (State.make (· == 7)) as := by
    repeat' refine Machine.AllSteps.cons rfl ?_ ?_
    all_goals first
      | trivial
      -- the documents come before the snapshot
      | exact fun _ _ _ => Or.inl rfl
      -- the arena is there, and so is the file to be written
      | (refine fun h => ?_; cases h; done)
      | (refine fun _ h => ?_; cases h)
  have hlast : ∀ s, (machine Nat Nat ⟨fun _ => false, fun _ => "a"⟩).run
      (State.make (· == 7)) as = some s → s.NoOrphan :=
    fun s h => (no_orphan_of_kept Nat Nat _).1 s
      (Machine.ReachableBy.run (.init ⟨_, rfl⟩) hsteps h)
  exact ⟨_, rfl, hlast _ rfl, rfl, rfl⟩

/-- `Dispose` overtakes a document that is about to be added, and its file stays. -/
theorem late_document_orphaned : ¬ ∀ (host : Host Nat) (s : State Bool Nat),
    (machine Bool Nat host).Reachable s → s.NoOrphan ∧ s.strayed = false := by
  intro h
  let steps := fun t n => List.replicate n (Action.step (t : Bool) (Choice.mk (1 : Nat) false true))
  let as : List (Action Bool Nat) := .call false .beginArena :: steps false 1 ++
    .call true (.makeLazyDocument 0 "lazy") :: steps true 2 ++
    .call false (.dispose 0) :: steps false 5 ++ steps true 1
  have hrun : ∃ s, (machine Bool Nat ⟨fun _ => false, fun _ => "a"⟩).run
      (State.make fun _ => false) as = some s ∧ s.made = 1 ∧ s.arenas 0 = false ∧
      s.files 1 = some [0] ∧ ∀ t, (s.pc t).arena = none :=
    ⟨_, rfl, rfl, rfl, rfl, fun t => by cases t <;> rfl⟩
  obtain ⟨s, hs, hmade, harena, hfile, hpc⟩ := hrun
  have hreach : (machine Bool Nat _).Reachable s := Machine.Reachable.run (.init ⟨_, rfl⟩) hs
  refine (h _ s hreach).1 0 ⟨by rw [hmade]; decide, harena, fun t => ?_⟩ 1 ⟨[0], hfile, ?_⟩
  · rw [hpc]
    nofun
  · exact List.mem_singleton_self 0

end Garbage.ContentManager
