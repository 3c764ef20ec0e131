import Garbage.StackWalker.Walker

/-!
# What a walk reports

A call of `ShowCallstack` calls `OnCallstackEntry` for each frame it walks over, and at the
end once more with the last entry.  Where it stops, and so the whole report, follows from
the frames alone: not from the modules and names that the debug library finds, nor from the
blocks that the heap refuses.

Most of the call only loads and describes.  `Pays ps x` says of such a part that it reports
nothing, and gives back the blocks `ps` and those that it allocates itself.
-/

namespace Garbage.StackWalker

open Foundation (Prog)
open Foundation.Prog

variable {σ β γ : Type}

/-- The entry that an event hands over. -/
def Event.entry : Event → Option (CallstackEntryType × CallstackEntry)
  | onCallstackEntry eType entry => some (eType, entry)
  | _ => none

def World.entries (w : World σ) : List (CallstackEntryType × CallstackEntry) :=
  w.events.filterMap Event.entry

/-- A block that is not allocated yet is not in use. -/
def World.Fresh (w : World σ) : Prop := ∀ k, w.allocations ≤ k → w.blocks k = false

/-! ### Blocks -/

/-- The blocks `ps` have been given back, and nothing was reported. -/
structure Settles (ps : List Nat) (w w' : World σ) : Prop where
  blocks : ∀ k, w'.blocks k = if k ∈ ps then false else w.blocks k
  allocations : w.allocations ≤ w'.allocations
  suspended : w'.suspended = w.suspended
  entries : w'.entries = w.entries

abbrev Calm (w w' : World σ) : Prop := Settles [] w w'

theorem Settles.refl (w : World σ) : Calm w w := ⟨fun _ => rfl, Nat.le_refl _, rfl, rfl⟩

theorem Settles.blocks_eq {w w' : World σ} (h : Calm w w') : w'.blocks = w.blocks :=
  funext fun k => by simpa using h.blocks k

theorem Settles.fresh {ps : List Nat} {w w' : World σ} (h : Settles ps w w') (hw : w.Fresh) :
    w'.Fresh := by
  intro k hk
  rw [h.blocks]
  split
  · rfl
  · exact hw k (Nat.le_trans h.allocations hk)

theorem Settles.after_calm {ps : List Nat} {w₁ w₂ w₃ : World σ} (h : Calm w₁ w₂)
    (h' : Settles ps w₂ w₃) : Settles ps w₁ w₃ where
  blocks k := by rw [h'.blocks, h.blocks_eq]
  allocations := Nat.le_trans h.allocations h'.allocations
  suspended := h'.suspended.trans h.suspended
  entries := h'.entries.trans h.entries

/-- A program that gives the blocks `ps` back, and all that it allocates itself. -/
def Pays (ps : List Nat) (x : Member σ β) : Prop :=
  ∀ w : World σ, w.Fresh → (∀ p ∈ ps, w.blocks p = true) →
    wp x (fun _ w' => Settles ps w w') (fun _ _ => False) w

abbrev Calms (x : Member σ β) : Prop := Pays [] x

section Rules

variable {ps : List Nat} {x : Member σ β} {f : β → Member σ γ}

theorem Pays.bind (hx : Calms x) (hf : ∀ b, Pays ps (f b)) : Pays ps (x >>= f) := by
  intro w hw hps
  rw [wp_bind]
  refine (hx w hw (by simp)).imp fun b w' hcalm => ?_
  refine (hf b w' (hcalm.fresh hw) fun p hp =>
    hcalm.blocks_eq ▸ hps p hp).imp fun _ w'' h => ?_
  exact hcalm.after_calm h

theorem Pays.ite {c : Prop} [Decidable c] {y : Member σ β} (hx : Pays ps x) (hy : Pays ps y) :
    Pays ps (if c then x else y) := by
  split
  · exact hx
  · exact hy

theorem Pays.congr {qs : List Nat} (h : Pays ps x) (hqs : ∀ q, q ∈ qs ↔ q ∈ ps) : Pays qs x := by
  intro w hw hps
  refine (h w hw fun p hp => hps p ((hqs p).mpr hp)).imp fun _ w' h => ?_
  exact ⟨fun k => by simpa only [hqs] using h.blocks k, h.allocations, h.suspended, h.entries⟩

theorem Calms.pure (b : β) : Calms (Pure.pure b : Member σ β) := fun w _ _ => Settles.refl w

theorem Calms.external (f : σ → β × σ) : Calms (external f) := fun _ _ _ =>
  ⟨fun _ => rfl, Nat.le_refl _, rfl, rfl⟩

theorem Calms.modify {f : World σ → World σ} (h : ∀ w, Calm w (f w)) :
    Calms (Prog.modify f : Member σ PUnit) := fun w _ _ => h w

theorem Calms.setLastError (gle : Nat) : Calms (setLastError gle : Member σ PUnit) :=
  Calms.modify fun _ => ⟨fun _ => rfl, Nat.le_refl _, rfl, rfl⟩

theorem Calms.log {event : Event} (h : event.entry = none) :
    Calms (log event : Member σ PUnit) := fun w _ _ =>
  ⟨fun _ => rfl, Nat.le_refl _, rfl, by simp [World.entries, h]⟩

theorem deallocate_eq {block : Nat} {w : World σ} (h : w.blocks block = true) :
    deallocate block w = some (.ok PUnit.unit,
      { w with blocks := Function.update w.blocks block false }) := by
  rw [deallocate, Prog.update, if_pos h]

/-- A block in use can be given back. -/
theorem Pays.deallocate {p : Nat} {y : Member σ γ} (hp : p ∉ ps) (hy : Pays ps y) :
    Pays (p :: ps) (deallocate p >>= fun _ => y) := by
  intro w hw hps
  have hblock := hps p List.mem_cons_self
  rw [wp_bind, wp_iff_of_ok (deallocate_eq hblock)]
  refine (hy _ ?_ ?_).imp fun _ w' h => ?_
  · intro k hk
    exact (Function.update_apply ..).trans (by split; rfl; exact hw k hk)
  · intro q hq
    have hne : q ≠ p := fun h => hp (h ▸ hq)
    exact (Function.update_of_ne hne ..).trans (hps q (List.mem_cons_of_mem p hq))
  · refine ⟨fun k => ?_, h.allocations, h.suspended, h.entries⟩
    rw [h.blocks]
    by_cases hk : k = p
    · subst hk
      simp
    · simp [hk]

theorem Pays.deallocateIfAny {p : Option Nat} {y : Member σ γ} (hp : ∀ q ∈ p, q ∉ ps)
    (hy : Pays ps y) : Pays (p.toList ++ ps) (deallocateIfAny p >>= fun _ => y) := by
  cases p with
  | none => exact hy
  | some p => exact Pays.deallocate (hp p rfl) hy

theorem allocate_refused {env : Environment σ} {w : World σ}
    (h : env.refuses w.allocations = true) :
    allocate env w = some (.ok none, { w with allocations := w.allocations + 1 }) := if_pos h

theorem allocate_granted {env : Environment σ} {w : World σ}
    (h : env.refuses w.allocations = false) :
    allocate env w = some (.ok (some w.allocations),
      { w with
        blocks := Function.update w.blocks w.allocations true
        allocations := w.allocations + 1 }) := if_neg (by simp [h])

/-- A block that is allocated has to be given back; there may be none. -/
theorem Pays.allocate (env : Environment σ) {f : Option Nat → Member σ γ}
    (hf : ∀ p, (∀ q ∈ p, q ∉ ps) → Pays (p.toList ++ ps) (f p)) :
    Pays ps (allocate env >>= f) := by
  intro w hw hps
  have hfree := hw w.allocations (Nat.le_refl _)
  have hnew : w.allocations ∉ ps := fun h => by simp [hps _ h] at hfree
  have hne {q : Nat} (hq : q ∈ ps) : q ≠ w.allocations := fun h => hnew (h ▸ hq)
  rw [wp_bind]
  cases hrefuses : env.refuses w.allocations with
  | true =>
    rw [wp_iff_of_ok (allocate_refused hrefuses)]
    refine (hf none nofun { w with allocations := w.allocations + 1 }
      (fun k hk => hw k (Nat.le_of_succ_le hk)) hps).imp fun _ w' h => ?_
    exact ⟨h.blocks, Nat.le_of_succ_le h.allocations, h.suspended, h.entries⟩
  | false =>
    rw [wp_iff_of_ok (allocate_granted hrefuses)]
    refine (hf (some w.allocations) (fun q hq => Option.some.inj hq ▸ hnew) _ ?_ ?_).imp
      fun _ w' h => ?_
    · intro k hk
      exact (Function.update_of_ne (Nat.ne_of_gt hk) ..).trans (hw k (Nat.le_of_succ_le hk))
    · intro q hq
      rcases List.mem_cons.mp hq with rfl | hq
      · exact Function.update_self ..
      · exact (Function.update_of_ne (hne hq) ..).trans (hps q hq)
    · refine ⟨fun k => ?_, Nat.le_of_succ_le h.allocations, h.suspended, h.entries⟩
      rw [h.blocks]
      by_cases hk : k = w.allocations
      · subst hk
        simp [hnew, hfree]
      · simp [hk]

end Rules

/-! ### Modules -/

section Modules

variable (env : Environment σ)

theorem calms_getModuleInfo (baseAddr : Addr) : Calms (getModuleInfo env baseAddr) := by
  unfold getModuleInfo
  split
  · exact Pays.bind (Calms.setLastError _) fun _ => Calms.pure none
  · next symGetModuleInfo64 _ =>
    refine Pays.allocate env fun pData _ => ?_
    cases pData with
    | none => exact Pays.bind (Calms.setLastError _) fun _ => Calms.pure none
    | some pData =>
      have hlarger : Calms (getModuleInfoV3 symGetModuleInfo64 baseAddr) := by
        intro w hw hps
        cases hversion : w.useV3Version with
        | true =>
          rw [wp_iff_of_ok (by rw [getModuleInfoV3, if_pos hversion]; rfl)]
          exact ⟨fun _ => rfl, Nat.le_refl _, rfl, rfl⟩
        | false =>
          rw [wp_iff_of_ok (by rw [getModuleInfoV3, if_neg (by simp [hversion])])]
          exact Settles.refl w
      refine Pays.bind hlarger fun larger => ?_
      cases larger with
      | some moduleInfo => exact Pays.deallocate List.not_mem_nil (Calms.pure _)
      | none =>
        refine Pays.bind (Calms.modify fun _ => ⟨fun _ => rfl, Nat.le_refl _, rfl, rfl⟩) fun _ => ?_
        refine Pays.bind (Calms.external _) fun smaller => ?_
        cases smaller with
        | some moduleInfo => exact Pays.deallocate List.not_mem_nil (Calms.pure _)
        | none =>
          refine Pays.deallocate List.not_mem_nil ?_
          exact Pays.bind (Calms.setLastError _) fun _ => Calms.pure none

theorem calms_symLoadModule (copied : Bool) (entry : ModuleEntry) :
    Calms (symLoadModule env copied entry) := by
  refine Pays.ite (Pays.bind (Calms.external _) fun gle => ?_) (Calms.pure _)
  cases gle with
  | none => exact Calms.pure _
  | some gle => exact Pays.bind (Calms.setLastError _) fun _ => Calms.pure _

theorem calms_reportModule (entry : ModuleEntry) (report : Bool) (result : Nat) :
    Calms (loadModule.reportModule env entry report result) :=
  Pays.ite (Pays.bind (calms_getModuleInfo env _) fun _ => Calms.log rfl) (Calms.pure _)

theorem calms_loadModule (entry : ModuleEntry) : Calms (loadModule env entry) := by
  refine Pays.allocate env fun szImg _ => Pays.allocate env fun szMod hszMod => ?_
  -- the blocks are given back in the order of their allocation
  have hdisjoint : ∀ q ∈ szImg, q ∉ szMod.toList ++ [] := by
    intro q hq hmem
    have hmod : q ∈ szMod := by simpa using hmem
    exact hszMod q hmod (by simpa using hq)
  have hfree (result : Nat) : Pays (szMod.toList ++ (szImg.toList ++ []))
      (deallocateIfAny szImg >>= fun _ => deallocateIfAny szMod >>= fun _ =>
        (pure result : Member σ Nat)) :=
    (Pays.deallocateIfAny hdisjoint (Pays.deallocateIfAny (fun _ _ => List.not_mem_nil)
      (Calms.pure result))).congr fun q => by simp [or_comm]
  refine Pays.bind (calms_symLoadModule env _ entry) fun loadingResult => ?_
  cases loadingResult with
  | none => exact hfree ERROR_SUCCESS
  | some result => exact Pays.bind (calms_reportModule env entry _ result) fun _ => hfree result

theorem calms_loadEach (report : Bool) (entries : List ModuleEntry) :
    Calms (loadEach env report entries) := by
  induction entries with
  | nil => exact Calms.pure _
  | cons entry entries ih =>
    refine Pays.bind (calms_loadModule env entry) fun dwRes => Pays.bind ?_ fun _ => ih
    exact Pays.ite (Calms.log rfl) (Calms.pure _)

theorem calms_getModuleListTH32 : Calms (getModuleListTH32 env) := by
  unfold getModuleListTH32
  split
  · exact Calms.pure _
  · refine Pays.bind (Calms.external _) fun entries => ?_
    cases entries with
    | none => exact Calms.pure _
    | some entries => exact Pays.bind (calms_loadEach env _ entries) fun _ => Calms.pure _

theorem calms_getModuleListPSAPI : Calms (getModuleListPSAPI env) := by
  unfold getModuleListPSAPI
  split
  · exact Calms.pure _
  · next enumProcessModules _ =>
    refine Pays.allocate env fun hMods _ => Pays.allocate env fun tt htt => ?_
    refine Pays.allocate env fun tt2 htt2 => ?_
    have hload (allocated : Bool) :
        Calms (loadProcessModules env enumProcessModules allocated) := by
      refine Pays.ite (Pays.bind (Calms.external _) fun found => ?_) (Calms.pure _)
      cases found with
      | none => exact Calms.pure _
      | some found =>
        exact Pays.ite (Calms.pure _)
          (Pays.bind (calms_loadEach env true _) fun _ => Calms.pure _)
    refine Pays.bind (hload _) fun cnt => ?_
    exact Pays.deallocateIfAny htt2 (Pays.deallocateIfAny htt
      (Pays.deallocateIfAny (fun _ _ => List.not_mem_nil) (Calms.pure _)))

theorem calms_addLoadedModules : Calms (addLoadedModules env) :=
  Pays.bind (calms_getModuleListTH32 env) fun _ =>
    Pays.ite (Calms.pure _) (calms_getModuleListPSAPI env)

end Modules

/-! ### Frames -/

section Frames

variable (env : Environment σ) (this : Members)

theorem calms_verboseErr (szFuncName : String) (addr : Addr) :
    Calms (verboseErr this szFuncName addr : Member σ PUnit) := by
  intro w hw hps
  unfold verboseErr
  by_cases hverbose : this.verbose
  · exact (wp_iff_of_ok (by rw [if_pos hverbose]; rfl)).mpr (Calms.log rfl w hw hps)
  · exact (wp_iff_of_ok (by rw [if_neg hverbose])).mpr (Settles.refl w)

/-- The strings fit into their arrays. -/
structure CallstackEntry.Fits (entry : CallstackEntry) : Prop where
  name : entry.name.length < STACKWALK_MAX_NAMELEN
  undName : entry.undName.length < STACKWALK_MAX_NAMELEN
  undFullName : entry.undFullName.length < STACKWALK_MAX_NAMELEN
  lineFileName : entry.lineFileName.length < STACKWALK_MAX_NAMELEN
  moduleName : entry.moduleName.length < STACKWALK_MAX_NAMELEN
  loadedImageName : entry.loadedImageName.length < STACKWALK_MAX_NAMELEN

theorem myStrCpy_fits (szSrc : Option Text) :
    (myStrCpy STACKWALK_MAX_NAMELEN szSrc).length < STACKWALK_MAX_NAMELEN := by
  cases szSrc with
  | none => exact Nat.succ_pos _
  | some szSrc =>
    rw [myStrCpy, List.length_take]
    exact Nat.lt_of_le_of_lt (Nat.min_le_left _ _) (Nat.lt_succ_self _)

theorem CallstackEntry.fits_reset (offset : Addr) (entry : CallstackEntry) :
    (entry.reset offset).Fits :=
  ⟨Nat.succ_pos _, Nat.succ_pos _, Nat.succ_pos _, Nat.succ_pos _, Nat.succ_pos _, Nat.succ_pos _⟩

theorem CallstackEntry.Fits.filled {entry : CallstackEntry} (h : entry.Fits) :
    entry.filled.Fits ∧ entry.filled.offset = entry.offset := by
  have hite {c : Prop} [Decidable c] {a b : Text} (ha : a.length < STACKWALK_MAX_NAMELEN)
      (hb : b.length < STACKWALK_MAX_NAMELEN) :
      (if c then a else b).length < STACKWALK_MAX_NAMELEN := by
    split
    · exact ha
    · exact hb
  have hname := hite (c := entry.undFullName = []) (hite (c := entry.undName = [])
    (hite (c := entry.name = []) (myStrCpy_fits (some "(function-name not available)".toList))
      h.name) (myStrCpy_fits (some entry.undName))) (myStrCpy_fits (some entry.undFullName))
  unfold CallstackEntry.filled
  dsimp only
  split
  · exact ⟨⟨hname, h.undName, h.undFullName,
      myStrCpy_fits (some "(filename not available)".toList),
      hite (myStrCpy_fits (some "(module-name not available)".toList)) h.moduleName,
      h.loadedImageName⟩, rfl⟩
  · exact ⟨⟨hname, h.undName, h.undFullName, h.lineFileName, h.moduleName, h.loadedImageName⟩, rfl⟩

def Describes (x : CallstackEntry → Member σ CallstackEntry) : Prop :=
  ∀ (entry : CallstackEntry) (w : World σ), w.Fresh → entry.Fits →
    wp (x entry) (fun entry' w' => Calm w w' ∧ entry'.offset = entry.offset ∧ entry'.Fits)
      (fun _ _ => False) w

variable {env this}

/-- What goes wrong leaves the entry as it is. -/
theorem wp_unchanged {x : Member σ PUnit} (hx : Calms x) {entry : CallstackEntry} {w₀ w : World σ}
    (hw : w.Fresh) (hcalm : Calm w₀ w) (hfits : entry.Fits) :
    wp (x >>= fun _ => (pure entry : Member σ CallstackEntry))
      (fun entry' w' => Calm w₀ w' ∧ entry'.offset = entry.offset ∧ entry'.Fits)
      (fun _ _ => False) w :=
  (wp_bind ..).mpr ((hx w hw (by simp)).imp fun _ _ h => ⟨hcalm.after_calm h, rfl, hfits⟩)

theorem Describes.of_pure : Describes (pure : CallstackEntry → Member σ CallstackEntry) :=
  fun _ w _ hfits => ⟨Settles.refl w, rfl, hfits⟩

theorem Describes.andThen {x y : CallstackEntry → Member σ CallstackEntry} (hx : Describes x)
    (hy : Describes y) : Describes fun entry => x entry >>= y := by
  intro entry w hw hfits
  refine (wp_bind ..).mpr ((hx entry w hw hfits).imp fun entry₁ w₁ h₁ => ?_)
  obtain ⟨hcalm, hoffset, hfits₁⟩ := h₁
  refine (hy entry₁ w₁ (hcalm.fresh hw) hfits₁).imp fun entry₂ w₂ h₂ => ?_
  exact ⟨hcalm.after_calm h₂.1, h₂.2.1.trans hoffset, h₂.2.2⟩

theorem describes_describeSymbol : Describes (describeSymbol env this) := by
  intro entry w hw hfits
  refine (wp_bind ..).mpr (((Calms.external _) w hw (by simp)).imp fun found w' hcalm => ?_)
  cases found with
  | ok pSym =>
    exact ⟨hcalm, rfl, ⟨myStrCpy_fits (some pSym.name), myStrCpy_fits (some _),
      myStrCpy_fits (some _), hfits.lineFileName, hfits.moduleName, hfits.loadedImageName⟩⟩
  | error gle =>
    refine (wp_bind ..).mpr ((Calms.setLastError gle w' (hcalm.fresh hw) (by simp)).imp ?_)
    intro _ w'' h
    exact wp_unchanged (calms_verboseErr this _ _) (h.fresh (hcalm.fresh hw))
      (hcalm.after_calm h) hfits

theorem describes_describeLine : Describes (describeLine env this) := by
  intro entry w hw hfits
  unfold describeLine
  split
  · exact Describes.of_pure entry w hw hfits
  · refine (wp_bind ..).mpr (((Calms.external _) w hw (by simp)).imp fun found w' hcalm => ?_)
    cases found with
    | ok line =>
      exact ⟨hcalm, rfl, ⟨hfits.name, hfits.undName, hfits.undFullName,
        myStrCpy_fits line.fileName, hfits.moduleName, hfits.loadedImageName⟩⟩
    | error gle =>
      refine (wp_bind ..).mpr ((Calms.setLastError gle w' (hcalm.fresh hw) (by simp)).imp ?_)
      intro _ w'' h
      exact wp_unchanged (calms_verboseErr this _ _) (h.fresh (hcalm.fresh hw))
        (hcalm.after_calm h) hfits

theorem describes_describeModule : Describes (describeModule env this) := by
  intro entry w hw hfits
  refine (wp_bind ..).mpr ((calms_getModuleInfo env _ w hw (by simp)).imp fun m w' hcalm => ?_)
  cases m with
  | some m =>
    exact ⟨hcalm, rfl, ⟨hfits.name, hfits.undName, hfits.undFullName, hfits.lineFileName,
      myStrCpy_fits (some m.moduleName), myStrCpy_fits (some m.loadedImageName)⟩⟩
  | none => exact wp_unchanged (calms_verboseErr this _ _) (hcalm.fresh hw) hcalm hfits

theorem describes_describe : Describes (describe env this) := by
  intro entry w hw hfits
  unfold describe
  split
  · exact Describes.of_pure entry w hw hfits
  · exact (describes_describeSymbol.andThen
      (describes_describeLine.andThen describes_describeModule)) entry w hw hfits

/-! ### Reports -/

/-- The entries `l` have been reported, which are listed by their addresses, and nothing else
has changed. -/
structure Reported (l : List (CallstackEntryType × Addr)) (w w' : World σ) : Prop where
  blocks : w'.blocks = w.blocks
  allocations : w.allocations ≤ w'.allocations
  suspended : w'.suspended = w.suspended
  entries : ∃ es, w'.entries = w.entries ++ es ∧ (∀ e ∈ es, e.2.Fits) ∧
    es.map (fun e => (e.1, e.2.offset)) = l

theorem Settles.reported {w w' : World σ} (h : Calm w w') : Reported [] w w' :=
  ⟨h.blocks_eq, h.allocations, h.suspended, [], by simp [h.entries], by simp, rfl⟩

theorem Reported.trans {l₁ l₂ : List (CallstackEntryType × Addr)} {w₁ w₂ w₃ : World σ}
    (h₁ : Reported l₁ w₁ w₂) (h₂ : Reported l₂ w₂ w₃) : Reported (l₁ ++ l₂) w₁ w₃ := by
  obtain ⟨es₁, hes₁, hfits₁, hl₁⟩ := h₁.entries
  obtain ⟨es₂, hes₂, hfits₂, hl₂⟩ := h₂.entries
  refine ⟨h₂.blocks.trans h₁.blocks, Nat.le_trans h₁.allocations h₂.allocations,
    h₂.suspended.trans h₁.suspended, es₁ ++ es₂, ?_, ?_, ?_⟩
  · rw [hes₂, hes₁, List.append_assoc]
  · intro e he
    exact (List.mem_append.mp he).elim (hfits₁ e) (hfits₂ e)
  · rw [List.map_append, hl₁, hl₂]

theorem Reported.fresh {l : List (CallstackEntryType × Addr)} {w w' : World σ}
    (h : Reported l w w') (hw : w.Fresh) : w'.Fresh := fun k hk => by
  rw [h.blocks]
  exact hw k (Nat.le_trans h.allocations hk)

theorem wp_onCallstackEntry (eType : CallstackEntryType) {entry : CallstackEntry} {w : World σ}
    (hw : w.Fresh) (hfits : entry.Fits) :
    wp (onCallstackEntry eType entry) (fun entry' w' => Reported [(eType, entry.offset)] w w' ∧
      entry'.offset = entry.offset ∧ entry'.Fits) (fun _ _ => False) w := by
  have hreported : Reported [(eType, entry.offset)] w
      { w with events := w.events ++ [.onCallstackEntry eType entry] } :=
    ⟨rfl, Nat.le_refl _, rfl, [(eType, entry)], by simp [World.entries, Event.entry],
      by simpa using hfits, rfl⟩
  refine (wp_bind ..).mpr ((wp_modify _).mpr ?_)
  split
  · refine (wp_bind ..).mpr ((Calms.log rfl _ (hreported.fresh hw) (by simp)).imp ?_)
    intro _ w' hcalm
    exact ⟨hreported.trans hcalm.reported, hfits.filled.2, hfits.filled.1⟩
  · exact ⟨hreported, rfl, hfits⟩

end Frames

/-! ### Where a walk ends -/

section Walks

variable (env : Environment σ) (this : Members)

namespace Environment

def frame (k : Nat) : StackFrame := (env.stackWalk64 k).2

def pc (k : Nat) : Addr := (env.frame k).addrPC

/-- How many frames right before the `k`th return to where they are. -/
def recursionCount : Nat → Nat
  | 0 => 0
  | k + 1 => if (env.frame k).addrPC = (env.frame k).addrReturn then recursionCount k + 1 else 0

def endless (k : Nat) : Bool :=
  (env.frame k).addrPC = (env.frame k).addrReturn ∧ isEndless this (env.recursionCount k)

/-- The walk stops at the `k`th frame if it comes to it. -/
def stops (k : Nat) : Bool :=
  (env.stackWalk64 k).1 = false ∨ env.endless this k ∨ (env.frame k).addrReturn = 0

/-- The first `n` frames in a report. -/
def shown (n : Nat) : List (CallstackEntryType × Addr) :=
  (List.range n).map fun k => (if k = 0 then .firstEntry else .nextEntry, env.pc k)

/-- The report of a walk that stops at the `k`th frame. -/
def report (k : Nat) : List (CallstackEntryType × Addr) :=
  if (env.stackWalk64 k).1 = false then
    env.shown k ++ if k = 0 then [] else [(.lastEntry, env.pc (k - 1))]
  else if env.endless this k then env.shown k ++ [(.lastEntry, env.pc k)]
  else env.shown (k + 1) ++ [(.lastEntry, env.pc k)]

variable {env this}

theorem shown_succ (k : Nat) : env.shown (k + 1) =
    env.shown k ++ [(if k = 0 then .firstEntry else .nextEntry, env.pc k)] := by
  rw [shown, List.range_succ, List.map_append]
  rfl

theorem lt_recursionCount {m k : Nat} : m < env.recursionCount k ↔ m < k ∧
    ∀ i, k ≤ i + (m + 1) → i < k → (env.frame i).addrPC = (env.frame i).addrReturn := by
  induction k generalizing m with
  | zero => simp [recursionCount]
  | succ k ih =>
    rw [recursionCount]
    split
    · next hk =>
      cases m with
      | zero =>
        refine ⟨fun _ => ⟨Nat.succ_pos k, fun i hi hik => ?_⟩, fun _ => Nat.succ_pos _⟩
        rwa [show i = k by omega]
      | succ m =>
        rw [Nat.succ_lt_succ_iff, ih, Nat.succ_lt_succ_iff]
        refine and_congr_right fun _ => ⟨fun h i hi hik => ?_, fun h i hi hik => ?_⟩
        · by_cases hlast : i = k
          · rwa [hlast]
          · exact h i (by omega) (by omega)
        · exact h i (by omega) (by omega)
    · next hk =>
      refine iff_of_false (Nat.not_lt_zero m) fun h => hk (h.2 k (by omega) (Nat.lt_succ_self k))

/-- The walk is cut off at a frame that returns to where it is, after more than
`m_MaxRecursionCount` others of that kind in a row. -/
theorem endless_iff {k : Nat} : env.endless this k = true ↔ ∃ m : Nat,
    this.maxRecursionCount = m ∧ 0 < m ∧ m < k ∧
      ∀ i, k ≤ i + (m + 1) → i ≤ k → (env.frame i).addrPC = (env.frame i).addrReturn := by
  rw [endless, decide_eq_true_iff, isEndless, decide_eq_true_iff]
  constructor
  · rintro ⟨hk, hpos, hlt⟩
    obtain ⟨m, hm⟩ := Int.eq_ofNat_of_zero_le (Int.le_of_lt hpos)
    have hcount : m < env.recursionCount k := by omega
    obtain ⟨hmk, hbefore⟩ := lt_recursionCount.mp hcount
    refine ⟨m, hm, by omega, hmk, fun i hi hik => ?_⟩
    by_cases hlast : i = k
    · rwa [hlast]
    · exact hbefore i hi (by omega)
  · rintro ⟨m, hm, hpos, hmk, hrow⟩
    have hcount : m < env.recursionCount k :=
      lt_recursionCount.mpr ⟨hmk, fun i hi hik => hrow i hi (by omega)⟩
    exact ⟨hrow k (by omega) (Nat.le_refl k), by omega, by omega⟩

end Environment

structure Walked (w₀ : World σ) (r : Round) (w : World σ) : Prop where
  goesOn : ∀ j < r.frameNum, env.stops this j = false
  count : r.curRecursionCount = env.recursionCount r.frameNum
  called : r.bLastEntryCalled = decide (r.frameNum = 0)
  reported : Reported (env.shown r.frameNum) w₀ w
  entry : r.frameNum ≠ 0 → r.csEntry.offset = env.pc (r.frameNum - 1) ∧ r.csEntry.Fits

/-- After the loop, which has stopped at the `k`th frame; the last entry may have to follow. -/
structure Ended (w₀ : World σ) (k : Nat) (r : Round) (w : World σ) : Prop where
  goesOn : ∀ j < k, env.stops this j = false
  stops : env.stops this k = true
  fits : r.bLastEntryCalled = false → r.csEntry.Fits
  reported : ∃ l, Reported l w₀ w ∧
    l ++ (if r.bLastEntryCalled then [] else [(.lastEntry, r.csEntry.offset)]) = env.report this k

variable {env this} {w₀ w : World σ} {r : Round}

theorem wp_showFrame (hw₀ : w₀.Fresh) {s : StackFrame} {k : Nat} (hs : s = env.frame k)
    (hk : r.frameNum = k) (hoffset : r.csEntry.offset = env.pc k) (hfits : r.csEntry.Fits)
    (h : Reported (env.shown k) w₀ w) :
    wp (showFrame env this s r) (fun res w' => Sum.elim
      (fun r' => (env.frame k).addrReturn ≠ 0 ∧ r'.frameNum = k + 1 ∧
        r'.curRecursionCount = r.curRecursionCount ∧ r'.bLastEntryCalled = false ∧
        Reported (env.shown (k + 1)) w₀ w' ∧ r'.csEntry.offset = env.pc k ∧ r'.csEntry.Fits)
      (fun r' => (env.frame k).addrReturn = 0 ∧ r'.bLastEntryCalled = true ∧
        Reported (env.shown (k + 1) ++ [(.lastEntry, env.pc k)]) w₀ w') res)
      (fun _ _ => False) w := by
  subst hs hk
  have hw := h.fresh hw₀
  refine (wp_bind ..).mpr ((describes_describe r.csEntry w hw hfits).imp fun e₁ w₁ h₁ => ?_)
  obtain ⟨hcalm, hoffset₁, hfits₁⟩ := h₁
  refine (wp_bind ..).mpr ((wp_onCallstackEntry _ (hcalm.fresh hw) hfits₁).imp ?_)
  intro e₂ w₂ h₂
  obtain ⟨hreported, hoffset₂, hfits₂⟩ := h₂
  rw [hoffset₁, hoffset] at hreported
  have hshown : Reported (env.shown (r.frameNum + 1)) w₀ w₂ := by
    rw [Environment.shown_succ]
    exact h.trans (hcalm.reported.trans hreported)
  have hpc : e₂.offset = env.pc r.frameNum := hoffset₂.trans (hoffset₁.trans hoffset)
  rw [wp_ite]
  refine ⟨fun hreturn => ?_, fun hreturn => ⟨hreturn, rfl, rfl, rfl, hshown, hpc, hfits₂⟩⟩
  refine (wp_bind ..).mpr ((wp_onCallstackEntry _ (hshown.fresh hw₀) hfits₂).imp ?_)
  intro e₃ w₃ h₃
  obtain ⟨hlast, hoffset₃, hfits₃⟩ := h₃
  rw [hpc] at hlast
  have hboth := hshown.trans hlast
  refine (wp_bind ..).mpr ((Calms.setLastError _ w₃ (hboth.fresh hw₀) (by simp)).imp ?_)
  intro _ w₄ hcalm₄
  exact ⟨hreturn, rfl, by simpa using hboth.trans hcalm₄.reported⟩

theorem Environment.stops_iff {k : Nat} : env.stops this k = true ↔
    (env.stackWalk64 k).1 = false ∨ env.endless this k = true ∨ (env.frame k).addrReturn = 0 :=
  decide_eq_true_iff

/-- What a round leaves: it goes on, or the walk ends. -/
def AfterRound (env : Environment σ) (this : Members) (w₀ : World σ) (n : Nat)
    (res : Round ⊕ Round) (w' : World σ) : Prop :=
  res.elim (fun r' => env.stops this n = false ∧ r'.frameNum = n + 1 ∧ Walked env this w₀ r' w')
    (fun r' => Ended env this w₀ n r' w')

/-- `StackWalk64` has failed. -/
theorem Walked.ended_of_failed (hw₀ : w₀.Fresh) (h : Walked env this w₀ r w)
    (hfail : (env.stackWalk64 r.frameNum).1 = false) (addr : Addr) :
    wp (onDbgHelpErr "StackWalk64" 0 addr >>= fun _ => pure (Sum.inr r))
      (AfterRound env this w₀ r.frameNum) (fun _ _ => False) w := by
  obtain ⟨hgoesOn, -, hcalled, hreported, hentry⟩ := h
  refine (wp_bind ..).mpr (((Calms.log rfl) w (hreported.fresh hw₀) (by simp)).imp
    fun _ w' hcalm => ?_)
  refine ⟨hgoesOn, Environment.stops_iff.mpr (.inl hfail), fun hlast => ?_, _,
    hreported.trans hcalm.reported, ?_⟩
  · rw [hcalled, decide_eq_false_iff_not] at hlast
    exact (hentry hlast).2
  · rw [Environment.report, if_pos hfail, List.append_nil, hcalled]
    by_cases hzero : r.frameNum = 0
    · simp [hzero]
    · simp [hzero, (hentry hzero).1]

/-- The walk is cut off before the frame is described. -/
theorem Walked.ended_of_endless (hw₀ : w₀.Fresh) (h : Walked env this w₀ r w) {s : StackFrame}
    (hs : env.stackWalk64 r.frameNum = (true, s))
    (hendless : env.endless this r.frameNum = true) :
    wp (onDbgHelpErr "StackWalk64-Endless-Callstack!" 0 s.addrPC >>= fun _ =>
        pure (Sum.inr { r with csEntry := r.csEntry.reset s.addrPC }))
      (AfterRound env this w₀ r.frameNum) (fun _ _ => False) w := by
  obtain ⟨hgoesOn, -, hcalled, hreported, -⟩ := h
  have hfits : (r.csEntry.reset s.addrPC).Fits := CallstackEntry.fits_reset _ _
  have hpc : (r.csEntry.reset s.addrPC).offset = env.pc r.frameNum := by
    rw [Environment.pc, Environment.frame, hs]
    rfl
  refine (wp_bind ..).mpr (((Calms.log rfl) w (hreported.fresh hw₀) (by simp)).imp
    fun _ w' hcalm => ?_)
  refine ⟨hgoesOn, Environment.stops_iff.mpr (.inr (.inl hendless)), fun _ => hfits, _,
    hreported.trans hcalm.reported, ?_⟩
  have hzero : r.frameNum ≠ 0 := by
    obtain ⟨m, -, -, hm, -⟩ := Environment.endless_iff.mp hendless
    omega
  simp [Environment.report, hs, hendless, hcalled, hzero, hpc]

/-- The frame is described, with the count of recursions as it should be. -/
theorem Walked.wp_shown (hw₀ : w₀.Fresh) (h : Walked env this w₀ r w) {s : StackFrame}
    (hs : env.stackWalk64 r.frameNum = (true, s))
    (hendless : env.endless this r.frameNum ≠ true) {count : Nat}
    (hcount : count = env.recursionCount (r.frameNum + 1)) :
    wp (showFrame env this s
        ⟨r.frameNum, count, r.csEntry.reset s.addrPC, r.bLastEntryCalled⟩)
      (AfterRound env this w₀ r.frameNum) (fun _ _ => False) w := by
  obtain ⟨hgoesOn, -, -, hreported, -⟩ := h
  have hok : (env.stackWalk64 r.frameNum).1 = true := by rw [hs]
  have hframe : s = env.frame r.frameNum := by rw [Environment.frame, hs]
  have hpc : (r.csEntry.reset s.addrPC).offset = env.pc r.frameNum := by
    rw [Environment.pc, ← hframe]
    rfl
  have hstops (hreturn : (env.frame r.frameNum).addrReturn ≠ 0) :
      env.stops this r.frameNum = false := by
    rw [Bool.eq_false_iff, ne_eq, Environment.stops_iff]
    simp [hok, hendless, hreturn]
  refine (wp_showFrame (r := ⟨r.frameNum, count, r.csEntry.reset s.addrPC,
    r.bLastEntryCalled⟩) hw₀ hframe rfl hpc (CallstackEntry.fits_reset _ _) hreported).imp
    fun res w' hres => ?_
  cases res with
  | inl r' =>
    obtain ⟨hreturn, hnum, hr', hlast, hreported', hoffset, hfits'⟩ := hres
    refine ⟨hstops hreturn, hnum, fun j hj => ?_, ?_, ?_, hnum ▸ hreported', fun _ => ?_⟩
    · rcases Nat.lt_succ_iff_lt_or_eq.mp (hnum ▸ hj) with hj | rfl
      · exact hgoesOn j hj
      · exact hstops hreturn
    · rw [hr', hnum, hcount]
    · simp [hlast, hnum]
    · rw [hnum]
      exact ⟨hoffset, hfits'⟩
  | inr r' =>
    obtain ⟨hreturn, hlast, hreported'⟩ := hres
    refine ⟨hgoesOn, Environment.stops_iff.mpr (.inr (.inr hreturn)),
      fun h => by simp [hlast] at h, _, hreported', ?_⟩
    simp [Environment.report, hok, hendless, hlast]

/-- The step lemma: a round. -/
theorem wp_walkFrame (hw₀ : w₀.Fresh) (h : Walked env this w₀ r w) :
    wp (walkFrame env this r) (AfterRound env this w₀ r.frameNum) (fun _ _ => False) w := by
  have hcount : r.curRecursionCount = env.recursionCount r.frameNum := h.count
  unfold walkFrame
  split
  · next s hs => exact h.ended_of_failed hw₀ (by rw [hs]) s.addrPC
  · next s hs =>
    have hframe : s = env.frame r.frameNum := by rw [Environment.frame, hs]
    dsimp only
    by_cases hendless : env.endless this r.frameNum = true
    · obtain ⟨hrecursive, hcut⟩ := of_decide_eq_true hendless
      rw [← hframe] at hrecursive
      rw [← hcount] at hcut
      rw [if_pos hrecursive, if_pos hcut]
      exact h.ended_of_endless hw₀ hs hendless
    · by_cases hrecursive : s.addrPC = s.addrReturn
      · have hcut : isEndless this r.curRecursionCount = false := by
          rw [Bool.eq_false_iff]
          intro hcut
          exact hendless (decide_eq_true ⟨hframe ▸ hrecursive, hcount ▸ hcut⟩)
        rw [if_pos hrecursive, if_neg (by simp [hcut])]
        refine h.wp_shown hw₀ hs hendless ?_
        rw [Environment.recursionCount, if_pos (hframe ▸ hrecursive), hcount]
      · rw [if_neg hrecursive]
        refine h.wp_shown hw₀ hs hendless ?_
        rw [Environment.recursionCount, if_neg (hframe ▸ hrecursive)]

theorem walked_start (w₀ : World σ) (csEntry : CallstackEntry) :
    Walked env this w₀ ⟨0, 0, csEntry, true⟩ w₀ :=
  ⟨nofun, rfl, rfl, (Settles.refl w₀).reported, fun h => absurd rfl h⟩

/-- The loop ends if there is a frame at which it stops. -/
theorem wp_walkLoop (hw₀ : w₀.Fresh) {k fuel : Nat} (hk : env.stops this k = true)
    (hfuel : k < fuel) (csEntry : CallstackEntry) :
    wp (loop (walkFrame env this) fuel ⟨0, 0, csEntry, true⟩) (fun _ _ => True)
      (fun _ _ => False) w₀ := by
  refine wp_loop (I := fun n r w => Walked env this w₀ r w ∧ r.frameNum + n = k) ?_ fuel k _ _
    ⟨walked_start w₀ csEntry, Nat.zero_add k⟩ hfuel
  rintro n r w ⟨hwalked, hn⟩
  refine (wp_walkFrame hw₀ hwalked).imp fun res w' hres => ?_
  cases res with
  | inl r' =>
    obtain ⟨hgoesOn, hnum, hwalked'⟩ := hres
    have hne : r.frameNum ≠ k := fun h => by simp [h, hk] at hgoesOn
    exact ⟨n - 1, by omega, hwalked', by omega⟩
  | inr r' => trivial

/-- What the loop leaves if it ends. -/
theorem ended_of_walkLoop (hw₀ : w₀.Fresh) {fuel : Nat} {csEntry : CallstackEntry}
    {res : Except Empty Round} {w' : World σ}
    (h : loop (walkFrame env this) fuel ⟨0, 0, csEntry, true⟩ w₀ = some (res, w')) :
    ∃ k r, res = .ok r ∧ Ended env this w₀ k r w' := by
  refine loop_outcome (I := fun r w => Walked env this w₀ r w)
    (Q := fun res w' => ∃ k r, res = .ok r ∧ Ended env this w₀ k r w') ?_ ?_ ?_ fuel _ _ _ _
    (walked_start w₀ csEntry) h
  · intro r w r' w' hwalked hround
    exact ((wp_iff_of_ok hround).mp (wp_walkFrame hw₀ hwalked)).2.2
  · intro r w r' w' hwalked hround
    exact ⟨_, r', rfl, (wp_iff_of_ok hround).mp (wp_walkFrame hw₀ hwalked)⟩
  · intro _ _ e
    exact e.elim

end Walks

/-! ### The call -/

section Calls

variable {env : Environment σ} {this : Members}

/-- Whether another thread has to be suspended. -/
def Suspends (env : Environment σ) (contextIsNull : Bool) : Prop :=
  contextIsNull = true ∧ env.isCurrentThread = false

instance (env : Environment σ) (contextIsNull : Bool) : Decidable (Suspends env contextIsNull) :=
  inferInstanceAs (Decidable (_ ∧ _))

/-- What holds when the walk may start, or does not. -/
structure Prepared (env : Environment σ) (contextIsNull : Bool) (w : World σ) (starts : Bool)
    (w' : World σ) : Prop where
  blocks : w'.blocks = w.blocks
  allocations : w.allocations ≤ w'.allocations
  entries : w'.entries = w.entries
  suspended : w'.suspended =
    if starts ∧ Suspends env contextIsNull then w.suspended + 1 else w.suspended
  hThread : starts = true → Suspends env contextIsNull → env.hThread = true

theorem wp_getContext {w₀ w : World σ} (hcalm : Calm w₀ w) (contextIsNull : Bool) :
    wp (getContext env contextIsNull) (fun b w' => Prepared env contextIsNull w₀ b w')
      (fun _ _ => False) w := by
  have hstay (starts : Bool) (hnot : ¬ (starts = true ∧ Suspends env contextIsNull)) :
      Prepared env contextIsNull w₀ starts w :=
    ⟨hcalm.blocks_eq, hcalm.allocations, hcalm.entries, by rw [if_neg hnot, hcalm.suspended],
      fun hstarts hsuspends => absurd ⟨hstarts, hsuspends⟩ hnot⟩
  unfold getContext
  by_cases hif : contextIsNull = true ∧ (!env.isCurrentThread) = true
  · have hsuspends : Suspends env contextIsNull := by
      simpa [Suspends] using hif
    rw [if_pos hif]
    refine (wp_bind ..).mpr ((wp_modify _).mpr ((wp_bind ..).mpr ((wp_iff_of_ok rfl).mpr ?_)))
    rw [wp_ite]
    refine ⟨fun hgot => ?_, fun _ => (wp_bind ..).mpr ((wp_modify _).mpr ?_)⟩
    · have hthread : env.hThread = true := (Bool.and_eq_true_iff.mp hgot).1
      refine ⟨hcalm.blocks_eq, hcalm.allocations, hcalm.entries, ?_, fun _ _ => hthread⟩
      simp [hsuspends, hthread, hcalm.suspended]
    · refine ⟨hcalm.blocks_eq, hcalm.allocations, hcalm.entries, ?_, nofun⟩
      cases env.hThread <;> simp [hcalm.suspended]
  · rw [if_neg hif]
    exact hstay true fun h => hif (by simpa [Suspends] using h.2)

theorem wp_prepare {w : World σ} (hw : w.Fresh) (contextIsNull : Bool) :
    wp (prepare env this contextIsNull) (fun b w' => Prepared env contextIsNull w b w')
      (fun _ _ => False) w := by
  have hstay {w' : World σ} (hcalm : Calm w w') : Prepared env contextIsNull w false w' :=
    ⟨hcalm.blocks_eq, hcalm.allocations, hcalm.entries, by simp [hcalm.suspended], nofun⟩
  unfold prepare
  split
  · refine (wp_bind ..).mpr ((calms_addLoadedModules env w hw (by simp)).imp fun _ w₁ h₁ => ?_)
    refine (wp_bind ..).mpr ((Calms.log rfl w₁ (h₁.fresh hw) (by simp)).imp fun _ w₂ h₂ => ?_)
    have hcalm := h₁.after_calm h₂
    split
    · exact wp_getContext hcalm contextIsNull
    · refine (wp_bind ..).mpr ((Calms.setLastError _ w₂ (hcalm.fresh hw) (by simp)).imp ?_)
      intro _ w₃ h₃
      exact hstay (hcalm.after_calm h₃)
  · exact hstay (Settles.refl w)

/-- The heap refused a block that was asked for between `w` and `w'`. -/
def Refused (env : Environment σ) (w w' : World σ) : Prop :=
  ∃ n, w.allocations ≤ n ∧ n < w'.allocations ∧ env.refuses n = true

/-- What a call leaves behind that returns `b`: the blocks and the thread are as before.  It
reports a walk, or nothing where it fails or was refused a block. -/
structure Shown (env : Environment σ) (this : Members) (w : World σ) (b : Bool) (w' : World σ) :
    Prop where
  blocks : w'.blocks = w.blocks
  suspended : w'.suspended = w.suspended
  entries : ∃ es, w'.entries = w.entries ++ es ∧ (∀ e ∈ es, e.2.Fits) ∧
    ((es = [] ∧ (b = false ∨ Refused env w w')) ∨
      ∃ k, (∀ j < k, env.stops this j = false) ∧ env.stops this k = true ∧
        es.map (fun e => (e.1, e.2.offset)) = env.report this k)

theorem wp_finish {contextIsNull : Bool} {r : Round} {w₀ w : World σ}
    {l : List (CallstackEntryType × Addr)} (hw : w.Fresh) (h : Reported l w₀ w)
    (hfits : r.bLastEntryCalled = false → r.csEntry.Fits) :
    wp (finish env contextIsNull r) (fun _ w' => w'.blocks = w₀.blocks ∧
      w.allocations ≤ w'.allocations ∧
      w'.suspended = (if contextIsNull = true ∧ env.hThread = true then w₀.suspended - 1
        else w₀.suspended) ∧
      ∃ es, w'.entries = w₀.entries ++ es ∧ (∀ e ∈ es, e.2.Fits) ∧
        es.map (fun e => (e.1, e.2.offset)) =
          l ++ if r.bLastEntryCalled then [] else [(.lastEntry, r.csEntry.offset)])
      (fun _ _ => False) w := by
  have hcall : wp (finish.callLastEntry r) (fun _ w' => Reported
      (l ++ if r.bLastEntryCalled then [] else [(.lastEntry, r.csEntry.offset)]) w₀ w' ∧
        w.allocations ≤ w'.allocations) (fun _ _ => False) w := by
    unfold finish.callLastEntry
    split
    · exact ⟨by simpa using h, Nat.le_refl _⟩
    · next hlast =>
      refine (wp_bind ..).mpr ((wp_onCallstackEntry _ hw (hfits (by simpa using hlast))).imp ?_)
      intro _ w' hw'
      exact ⟨h.trans hw'.1, hw'.1.allocations⟩
  refine (wp_bind ..).mpr (hcall.imp fun _ w' hw' => ?_)
  obtain ⟨hw', hallocations⟩ := hw'
  split
  · next hnull =>
    refine (wp_bind ..).mpr ((wp_modify _).mpr ⟨hw'.blocks, hallocations, ?_, hw'.entries⟩)
    simp [hnull, hw'.suspended]
  · next hnull =>
    exact ⟨hw'.blocks, hallocations, by simp [hnull, hw'.suspended], hw'.entries⟩

/-- The thread has been resumed as often as it has been suspended. -/
theorem suspended_of_prepared {contextIsNull : Bool} {w w' : World σ}
    (h : Prepared env contextIsNull w true w')
    (hthread : env.isCurrentThread = true → w.suspended = 0) :
    (if contextIsNull = true ∧ env.hThread = true then w'.suspended - 1 else w'.suspended) =
      w.suspended := by
  by_cases hsuspends : Suspends env contextIsNull
  · rw [if_pos ⟨hsuspends.1, h.hThread rfl hsuspends⟩, h.suspended, if_pos ⟨rfl, hsuspends⟩]
    rfl
  · have hsame : w'.suspended = w.suspended := by simp [h.suspended, hsuspends]
    split
    · next hnull =>
      have hcurrent : env.isCurrentThread = true := by
        simpa [Suspends, hnull.1] using hsuspends
      rw [hsame, hthread hcurrent]
    · exact hsame

/-- What the walk leaves for the end of a call: the last entry may have to follow. -/
structure Over (env : Environment σ) (this : Members) (w₀ : World σ) (r : Round) (w : World σ) :
    Prop where
  fits : r.bLastEntryCalled = false → r.csEntry.Fits
  reported : ∃ l l', Reported l w₀ w ∧
    l ++ (if r.bLastEntryCalled then [] else [(.lastEntry, r.csEntry.offset)]) = l' ∧
    ((l' = [] ∧ Refused env w₀ w) ∨
      ∃ k, (∀ j < k, env.stops this j = false) ∧ env.stops this k = true ∧ l' = env.report this k)

/-- The walk with the block of its symbols is stuck only for want of rounds. -/
theorem walk_over {w : World σ} (hw : w.Fresh) (csEntry : CallstackEntry) (fuel : Nat) :
    ∃ pSym w₁, allocate env w = some (.ok pSym, w₁) ∧
      ((walk env this csEntry fuel pSym w₁ = none ∧ ∀ k, env.stops this k = true → fuel ≤ k) ∨
        ∃ r w₂ w₃, walk env this csEntry fuel pSym w₁ = some (.ok r, w₂) ∧
          deallocateIfAny pSym w₂ = some (.ok PUnit.unit, w₃) ∧ Over env this w r w₃) := by
  cases hrefuses : env.refuses w.allocations with
  | true =>
    refine ⟨_, _, allocate_refused hrefuses, .inr ⟨_, _, _, rfl, rfl, nofun, [], [], ?_, rfl, ?_⟩⟩
    · exact ⟨rfl, Nat.le_succ _, rfl, [], (List.append_nil _).symm, nofun, rfl⟩
    · exact .inl ⟨rfl, w.allocations, Nat.le_refl _, Nat.lt_succ_self _, hrefuses⟩
  | false =>
    refine ⟨_, _, allocate_granted hrefuses, ?_⟩
    have hnew := hw w.allocations (Nat.le_refl _)
    let w₁ : World σ :=
      { w with
        blocks := Function.update w.blocks w.allocations true
        allocations := w.allocations + 1 }
    have hw₁ : w₁.Fresh := by
      intro k hk
      exact (Function.update_of_ne (Nat.ne_of_gt hk) ..).trans (hw k (Nat.le_of_succ_le hk))
    cases hwalk : loop (walkFrame env this) fuel ⟨0, 0, csEntry, true⟩ w₁ with
    | none =>
      refine .inl ⟨hwalk, fun k hk => Nat.le_of_not_lt fun hfuel => ?_⟩
      obtain ⟨_, _, hends, -⟩ := (wp_walkLoop hw₁ hk hfuel csEntry).returns
      rw [hwalk] at hends
      cases hends
    | some res =>
      obtain ⟨k, r, hr, hgoesOn, hstops, hfits, l, hl, hreport⟩ := ended_of_walkLoop hw₁ hwalk
      have hblocks : res.2.blocks = Function.update w.blocks w.allocations true := hl.blocks
      refine .inr ⟨r, res.2, { res.2 with blocks := w.blocks }, ?_, ?_, hfits, l, _, ?_, hreport,
        .inr ⟨k, hgoesOn, hstops, rfl⟩⟩
      · rw [← hr]
        exact hwalk
      · have hback : Function.update res.2.blocks w.allocations false = w.blocks := by
          rw [hblocks, Function.update_idem, ← hnew, Function.update_eq_self]
        rw [← hback]
        exact deallocate_eq (by rw [hblocks, Function.update_self])
      · exact ⟨rfl, Nat.le_of_succ_le hl.allocations, hl.suspended, hl.entries⟩

theorem showCallstack_outcome {w : World σ} (hw : w.Fresh)
    (hthread : env.isCurrentThread = true → w.suspended = 0) (contextIsNull : Bool)
    (csEntry : CallstackEntry) (fuel : Nat) :
    (showCallstack env this contextIsNull csEntry fuel w = none ∧
      ∀ k, env.stops this k = true → fuel ≤ k) ∨
    ∃ b w', showCallstack env this contextIsNull csEntry fuel w = some (.ok b, w') ∧
      Shown env this w b w' := by
  obtain ⟨starts, w₁, hprepare, hprepared⟩ :=
    (wp_prepare hw contextIsNull : wp (prepare env this contextIsNull) _ _ w).returns
  have hcall : showCallstack env this contextIsNull csEntry fuel w = _ := bind_of_ok hprepare _
  cases starts with
  | false =>
    refine .inr ⟨false, w₁, hcall, hprepared.blocks, by simp [hprepared.suspended], [], ?_, nofun,
      .inl ⟨rfl, .inl rfl⟩⟩
    simp [hprepared.entries]
  | true =>
    have hw₁ : w₁.Fresh := by
      intro k hk
      rw [hprepared.blocks]
      exact hw k (Nat.le_trans hprepared.allocations hk)
    obtain ⟨pSym, w₂, hallocate, hwalk⟩ := @walk_over σ env this w₁ hw₁ csEntry fuel
    rw [if_pos rfl, bind_of_ok hallocate] at hcall
    rcases hwalk with ⟨hstuck, hfuel⟩ | ⟨r, w₃, w₄, hwalk, hdeallocate, hover⟩
    · exact .inl ⟨hcall.trans (bind_of_none hstuck _), hfuel⟩
    · obtain ⟨hfits, l, l', hl, hl', hends⟩ := hover
      rw [bind_of_ok hwalk, bind_of_ok hdeallocate] at hcall
      obtain ⟨b, w', hfinish, hblocks, hallocations, hsuspended, es, hes, hesfits, hmap⟩ :=
        (wp_finish (hl.fresh hw₁) hl hfits : wp (finish env contextIsNull r) _ _ w₄).returns
      rw [hl'] at hmap
      refine .inr ⟨b, w', hcall.trans hfinish, hblocks.trans hprepared.blocks,
        hsuspended.trans (suspended_of_prepared hprepared hthread), es, ?_, hesfits, ?_⟩
      · rw [hes, hprepared.entries]
      · rcases hends with ⟨hnil, n, hfirst, hlast, hrefuses⟩ | ⟨k, hgoesOn, hstops, hreport⟩
        · refine .inl ⟨?_, .inr ⟨n, Nat.le_trans hprepared.allocations hfirst,
            Nat.lt_of_lt_of_le hlast hallocations, hrefuses⟩⟩
          rw [hnil] at hmap
          exact List.map_eq_nil_iff.mp hmap
        · exact .inr ⟨k, hgoesOn, hstops, hmap.trans hreport⟩

/-- A stack that only returns to where it is does not hold the walk for ever. -/
theorem Environment.stops_of_recursive {n m : Nat} (hm : this.maxRecursionCount = m) (hpos : 0 < m)
    (hrow : ∀ i, n ≤ i → (env.frame i).addrPC = (env.frame i).addrReturn) :
    env.stops this (n + (m + 1)) = true :=
  stops_iff.mpr (.inr (.inl (endless_iff.mpr ⟨m, hm, hpos, by omega, fun i hi _ =>
    hrow i (by omega)⟩)))

/-- A thread with two frames, and no debug information. -/
def twoFrames : Environment PUnit where
  refuses _ := false
  stackWalk64 n := (true, if n = 0 then ⟨10, 20⟩ else ⟨20, 0⟩)
  symGetSymFromAddr64 _ w := (.error 487, w)
  unDecorateSymbolName _ name := name
  symGetLineFromAddr64 := none
  symGetModuleInfo64 := some fun _ _ w => (none, w)
  symLoadModule64 _ w := (none, w)
  toolhelp := none
  psapi := some fun w => (some (8, fun _ => ⟨['a'], ['b'], 0, 100⟩), w)
  sizeofHMODULE := 8
  isCurrentThread := false
  hThread := true
  getThreadContext w := (true, w)

end Calls

end Garbage.StackWalker
