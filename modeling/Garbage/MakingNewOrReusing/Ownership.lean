import Garbage.MakingNewOrReusing.StoreFactoryMaker
import Mathlib.Data.List.Induction
import Mathlib.Data.List.Nodup

/-!
# Who disposes a value

Each owner, the factory or a container, has a value to dispose or none
(`owned`).  After any calls the disposals are those of the owners that a call
has asked to dispose, once for each (`Follows.run`).  The mode says which owners
have a value, and the laws of the modes follow (`disposed_by_owner`).
-/

namespace Garbage.MakingNewOrReusing

open Foundation (Machine)

variable {α : Type}

/-- The call asks the owner to dispose. -/
def Call.disposes (owner : Owner) : Call α → Bool
  | .disposeFactory _ => owner = .factory
  | .disposeContainer i _ => owner = .container i
  | _ => false

def Disposed (calls : List (Call α)) (owner : Owner) : Bool := calls.any (Call.disposes owner)

/-- The value that an owner has to dispose. -/
def owned (product : Product α) (made : List (Container α)) : Owner → Option α
  | .factory =>
    match product with
    | .plain _ => none
    | .disposable storeFactory => storeFactory.dispose.2
  | .container i => (made[i]?).bind fun container => container.dispose.2

/-! ### The log -/

/-- The disposals are those of the disposed owners, each one once. -/
structure Log (disposals : List (Owner × α)) (disposed : Owner → Bool)
    (owned : Owner → Option α) : Prop where
  nodup : disposals.Nodup
  mem : ∀ owner value, (owner, value) ∈ disposals ↔ disposed owner = true ∧ owned owner = some value

section Log

variable {disposals : List (Owner × α)} {disposed disposed' : Owner → Bool}
  {owned owned' : Owner → Option α} {owner : Owner}

theorem Log.congr (h : Log disposals disposed owned) (hdisposed : ∀ o, disposed' o = disposed o)
    (howned : ∀ o, disposed o = true → owned' o = owned o) : Log disposals disposed' owned' := by
  refine ⟨h.nodup, fun o value => (h.mem o value).trans ?_⟩
  rw [hdisposed o]
  refine and_congr_right fun ho => ?_
  rw [howned o ho]

theorem Log.first (h : Log disposals disposed owned) (howner : disposed owner = false)
    (hdisposed : ∀ o, disposed' o = (disposed o || decide (o = owner))) :
    Log (disposals ++ (owned owner).toList.map (Prod.mk owner)) disposed' owned := by
  have hnew (o : Owner) (value : α) : (o, value) ∈ (owned owner).toList.map (Prod.mk owner) ↔
      o = owner ∧ owned owner = some value := by
    simp only [List.mem_map, Option.mem_toList, Prod.mk.injEq]
    constructor
    · rintro ⟨v, hv, rfl, rfl⟩
      exact ⟨rfl, hv⟩
    · rintro ⟨rfl, hv⟩
      exact ⟨value, hv, rfl, rfl⟩
  refine ⟨List.nodup_append.mpr ⟨h.nodup, ?_, ?_⟩, fun o value => ?_⟩
  · cases owned owner with
    | none => exact List.nodup_nil
    | some value => exact List.nodup_singleton _
  · rintro ⟨o, value⟩ hold ⟨o', value'⟩ hmem heq
    cases heq
    have hdisposed := ((h.mem o value).mp hold).1
    rw [((hnew o value).mp hmem).1, howner] at hdisposed
    exact Bool.false_ne_true hdisposed
  · rw [List.mem_append, h.mem, hnew, hdisposed, Bool.or_eq_true, decide_eq_true_eq]
    constructor
    · rintro (⟨ho, hv⟩ | ⟨rfl, hv⟩)
      · exact ⟨.inl ho, hv⟩
      · exact ⟨.inr rfl, hv⟩
    · rintro ⟨ho | rfl, hv⟩
      · exact .inl ⟨ho, hv⟩
      · exact .inr ⟨rfl, hv⟩

theorem Log.again (h : Log disposals disposed owned) (howner : disposed owner = true)
    (hdisposed : ∀ o, disposed' o = (disposed o || decide (o = owner))) :
    Log disposals disposed' owned := by
  refine h.congr (fun o => ?_) fun _ _ => rfl
  rw [hdisposed o]
  by_cases ho : o = owner
  · rw [ho, howner]
    rfl
  · rw [decide_eq_false ho, Bool.or_false]

end Log

/-! ### Disposing twice -/

theorem Container.dispose_dispose (c : Container α) :
    c.dispose.1.dispose = (c.dispose.1, none) := by
  cases c with
  | storedValue | storedDisposableValue => rfl

theorem Disposable.dispose_dispose (f : Disposable α) :
    f.dispose.1.dispose = (f.dispose.1, none) := by
  cases f with
  | disposableStoreFactory | notNeedDisposeStoreFactoryAdapter => rfl

theorem Container.value_dispose (c : Container α) :
    c.dispose.1.value = .error (.objectDisposed "Value") := by
  cases c with
  | storedValue | storedDisposableValue => rfl

theorem Disposable.valueContainer_dispose (f : Disposable α) (made : Made α) :
    f.dispose.1.valueContainer made = .error (.objectDisposed "ValueContainer") := by
  cases f with
  | disposableStoreFactory | notNeedDisposeStoreFactoryAdapter => rfl

/-! ### Runs -/

def Product.disposed : Product α → Product α
  | plain storeFactory => plain storeFactory
  | disposable storeFactory => disposable storeFactory.dispose.1

/-- The state after calls that asked the owners in `disposed` to dispose. -/
structure Follows (product : Product α) (disposed : Owner → Bool) (s : State α) : Prop where
  product_eq : s.product = if disposed .factory then product.disposed else product
  containers_eq : ∀ i : Nat, s.containers[i]? = (s.made[i]?).map fun container =>
    if disposed (.container i) then container.dispose.1 else container
  lt_length : ∀ i, disposed (.container i) = true → i < s.made.length
  asked : disposed .factory = true → ∃ f, product = .disposable f
  given : ∀ container ∈ s.made, ∃ made, product.valueContainer made = .ok container
  log : Log s.disposals disposed (owned product s.made)

section Runs

variable {product : Product α} {disposed disposed' : Owner → Bool} {s s' : State α} {i : Nat}
  {container : Container α}

theorem Follows.length (hs : Follows product disposed s) :
    s.containers.length = s.made.length := by
  have hiff (i : Nat) : s.containers.length ≤ i ↔ s.made.length ≤ i := by
    rw [← List.getElem?_eq_none_iff, ← List.getElem?_eq_none_iff, hs.containers_eq i,
      Option.map_eq_none_iff]
  exact Nat.le_antisymm ((hiff _).mpr (Nat.le_refl _)) ((hiff _).mp (Nat.le_refl _))

/-- Only the product itself gives containers, not what is left of it when it is disposed. -/
theorem Follows.gives {made : Made α} (hs : Follows product disposed s)
    (hcontainer : s.product.valueContainer made = .ok container) :
    ∃ made, product.valueContainer made = .ok container := by
  have hproduct := hs.product_eq
  split at hproduct
  · rw [hproduct] at hcontainer
    cases product with
    | plain f => exact ⟨made, hcontainer⟩
    | disposable f => exact nomatch (f.valueContainer_dispose made).symm.trans hcontainer
  · exact ⟨made, hproduct ▸ hcontainer⟩

theorem Follows.valueContainer {made : Made α} (hs : Follows product disposed s)
    (hcontainer : s.product.valueContainer made = .ok container) :
    Follows product disposed { s with
      containers := s.containers ++ [container], made := s.made ++ [container] } := by
  have hlength := hs.length
  have hfresh : disposed (.container s.made.length) = false := by
    by_contra h
    exact Nat.lt_irrefl _ (hs.lt_length _ (eq_true_of_ne_false h))
  refine ⟨hs.product_eq, fun i => ?_, fun i hi => ?_, hs.asked, fun c hc => ?_,
    hs.log.congr (fun _ => rfl) fun o ho => ?_⟩
  · rcases Nat.lt_trichotomy i s.made.length with hi | rfl | hi
    · dsimp only
      rw [List.getElem?_append_left hi, List.getElem?_append_left (by omega)]
      exact hs.containers_eq i
    · dsimp only
      rw [List.getElem?_append_right (Nat.le_refl _), List.getElem?_append_right (by omega),
        hlength, Nat.sub_self, hfresh]
      rfl
    · dsimp only
      rw [List.getElem?_eq_none (by simp; omega), List.getElem?_eq_none (by simp; omega)]
      rfl
  · have hi' := hs.lt_length i hi
    rw [List.length_append]
    omega
  · rcases List.mem_append.mp hc with hc | hc
    · exact hs.given c hc
    · rw [List.mem_singleton.mp hc]
      exact hs.gives hcontainer
  · cases o with
    | factory => rfl
    | container i =>
      dsimp only [owned]
      rw [List.getElem?_append_left (hs.lt_length i ho)]

theorem Follows.disposeFactory {f : Disposable α} (hs : Follows product disposed s)
    (hf : s.product = .disposable f)
    (hdisposed : ∀ o, disposed' o = (disposed o || decide (o = .factory))) :
    Follows product disposed' { s with
      product := .disposable f.dispose.1
      disposals := s.disposals ++ f.dispose.2.toList.map (Prod.mk .factory) } := by
  have hcontainer (i : Nat) : disposed' (.container i) = disposed (.container i) := by
    rw [hdisposed]
    exact Bool.or_false _
  have hfactory : disposed' .factory = true := by
    rw [hdisposed]
    exact Bool.or_true _
  have hproduct := hs.product_eq
  rw [hf] at hproduct
  refine ⟨?_, fun i => ?_, fun i hi => hs.lt_length i (hcontainer i ▸ hi), fun _ => ?_,
    hs.given, ?_⟩
  · rw [if_pos hfactory]
    by_cases hd : disposed .factory = true
    · rw [if_pos hd] at hproduct
      rw [← hproduct]
      cases product with
      | plain g => exact nomatch hproduct
      | disposable g =>
        cases hproduct
        exact congrArg (fun x => Product.disposable x.1) g.dispose_dispose
    · rw [if_neg hd] at hproduct
      rw [← hproduct]
      rfl
  · rw [hcontainer]
    exact hs.containers_eq i
  · cases product with
    | plain g => split at hproduct <;> exact nomatch hproduct
    | disposable g => exact ⟨g, rfl⟩
  · by_cases hd : disposed .factory = true
    · rw [if_pos hd] at hproduct
      have hnone : f.dispose.2 = none := by
        cases product with
        | plain g => exact nomatch hproduct
        | disposable g =>
          cases hproduct
          exact congrArg Prod.snd g.dispose_dispose
      dsimp only
      rw [hnone]
      exact (List.append_nil s.disposals).symm ▸ hs.log.again hd hdisposed
    · rw [if_neg hd] at hproduct
      have hfirst := hs.log.first (eq_false_of_ne_true hd) hdisposed
      rw [← hproduct] at hfirst ⊢
      exact hfirst

theorem Follows.disposeContainer (hs : Follows product disposed s)
    (hi : s.containers[i]? = some container)
    (hdisposed : ∀ o, disposed' o = (disposed o || decide (o = .container i))) :
    Follows product disposed' { s with
      containers := s.containers.set i container.dispose.1
      disposals := s.disposals ++ container.dispose.2.toList.map (Prod.mk (.container i)) } := by
  have hlt : i < s.containers.length := (List.getElem?_eq_some_iff.mp hi).1
  have hself : disposed' (.container i) = true := by
    rw [hdisposed, decide_eq_true rfl, Bool.or_true]
  have hother {o : Owner} (ho : o ≠ .container i) : disposed' o = disposed o := by
    rw [hdisposed, decide_eq_false ho, Bool.or_false]
  obtain ⟨c, hmade, hc⟩ := Option.map_eq_some_iff.mp ((hs.containers_eq i).symm.trans hi)
  have hfactory : disposed' .factory = disposed .factory := hother nofun
  refine ⟨?_, fun j => ?_, fun j hj => ?_, fun h => hs.asked (hfactory ▸ h), hs.given, ?_⟩
  · dsimp only
    rw [hfactory]
    exact hs.product_eq
  · by_cases hij : i = j
    · subst hij
      dsimp only
      rw [List.getElem?_set_self hlt, hmade, Option.map_some, if_pos hself, ← hc]
      split
      · rw [Container.dispose_dispose]
      · rfl
    · dsimp only
      rw [List.getElem?_set_ne hij, hother fun h => hij (Owner.container.inj h).symm]
      exact hs.containers_eq j
  · by_cases hij : j = i
    · rw [hij, ← hs.length]
      exact hlt
    · exact hs.lt_length j (hother (fun h => hij (Owner.container.inj h)) ▸ hj)
  · by_cases hd : disposed (.container i) = true
    · rw [if_pos hd] at hc
      dsimp only
      rw [← hc, Container.dispose_dispose]
      exact (List.append_nil s.disposals).symm ▸ hs.log.again hd hdisposed
    · rw [if_neg hd] at hc
      have hfirst := hs.log.first (eq_false_of_ne_true hd) hdisposed
      rw [show owned product s.made (.container i) = container.dispose.2 by
        dsimp only [owned]
        rw [hmade, ← hc]
        rfl] at hfirst
      exact hfirst

theorem Follows.next {c : Call α} (hs : Follows product disposed s)
    (hn : (machine product).next s c = some s') :
    Follows product (fun o => disposed o || c.disposes o) s' := by
  obtain ⟨⟨s₁, response⟩, hcall, rfl⟩ := Option.map_eq_some_iff.mp hn
  have hsame (h : ∀ o, c.disposes o = false) :
      (fun o => disposed o || c.disposes o) = disposed := by
    funext o
    rw [h o, Bool.or_false]
  cases c with
  | valueContainer made =>
    rw [hsame fun _ => rfl]
    dsimp only [call] at hcall
    split at hcall
    · next hcontainer =>
      cases hcall
      exact hs.valueContainer hcontainer
    · cases hcall
      exact hs
  | disposeFactory error =>
    dsimp only [call] at hcall
    split at hcall
    · exact nomatch hcall
    · next f hf =>
      cases hcall
      exact hs.disposeFactory hf fun _ => rfl
  | value i =>
    rw [hsame fun _ => rfl]
    obtain ⟨container, -, heq⟩ := Option.map_eq_some_iff.mp hcall
    split at heq <;> cases heq <;> exact hs
  | disposeContainer i error =>
    obtain ⟨container, hi, heq⟩ := Option.map_eq_some_iff.mp hcall
    cases heq
    exact hs.disposeContainer hi fun _ => rfl

/-- **The disposals of a run** are those of the owners that were asked to dispose. -/
theorem Follows.run {calls : List (Call α)} (hrun : (machine product).run (start product) calls =
    some s) : Follows product (Disposed calls) s := by
  induction calls using List.reverseRecOn generalizing s with
  | nil =>
    cases hrun
    refine ⟨rfl, fun _ => rfl, nofun, nofun, nofun, List.nodup_nil, fun _ _ => ?_⟩
    refine iff_of_false nofun ?_
    exact fun h => nomatch h.1
  | append_singleton calls c ih =>
    rw [Machine.run_append] at hrun
    obtain ⟨m, hm, hrun⟩ := Option.bind_eq_some_iff.mp hrun
    obtain ⟨s₁, hn, hrun⟩ := Option.bind_eq_some_iff.mp hrun
    cases hrun
    have hnext := (ih hm).next hn
    have heq : Disposed (calls ++ [c]) = fun o => Disposed calls o || c.disposes o := by
      funext o
      rw [Disposed, List.any_append]
      simp [Disposed]
    rwa [heq]

theorem Follows.value_disposed (hs : Follows product disposed s)
    (hi : disposed (.container i) = true) :
    call s (.value i) = some (s, .threw (.objectDisposed "Value")) := by
  have hc := List.getElem?_eq_getElem (hs.lt_length i hi)
  have hcontainer := hs.containers_eq i
  rw [hc, Option.map_some, if_pos hi] at hcontainer
  dsimp only [call]
  rw [hcontainer, Option.map_some, Container.value_dispose]

theorem Follows.valueContainer_disposed (hs : Follows product disposed s)
    (hd : disposed .factory = true) (made : Made α) :
    call s (.valueContainer made) = some (s, .threw (.objectDisposed "ValueContainer")) := by
  obtain ⟨f, rfl⟩ := hs.asked hd
  have hproduct := hs.product_eq
  rw [if_pos hd] at hproduct
  dsimp only [call]
  rw [hproduct]
  dsimp only [Product.disposed, Product.valueContainer]
  rw [f.valueContainer_dispose made]

end Runs

/-! ### The modes -/

section Modes

variable {maker : Maker α} {product : Product α}

/-- What the makers make in each mode. -/
def Product.OfMode (product : Product α) : DisposableStoreFactoryMode → Prop
  | .storingAndDisposingValue =>
    ∃ value, product = .disposable (.disposableStoreFactory (some value))
  | .storingValueAndMakerWillDisposingValue => ∃ value, product = .plain (.stored value) ∨
      product = .disposable (.notNeedDisposeStoreFactoryAdapter (some (.stored value)))
  | .makingNewValue => product = .plain .factory ∨
      product = .disposable (.notNeedDisposeStoreFactoryAdapter (some .factory))

theorem StoreFactory.of_newStored {value : Option α} {f : StoreFactory α}
    (h : newStored value = .ok f) : ∃ v, f = .stored v := by
  cases value with
  | none => exact nomatch h
  | some v => exact ⟨v, (Except.ok.inj h).symm⟩

theorem StoreFactory.of_newFactory {valueFactory : Option (Made α)} {f : StoreFactory α}
    (h : newFactory valueFactory = .ok f) : f = .factory := by
  cases valueFactory with
  | none => exact nomatch h
  | some made => exact (Except.ok.inj h).symm

theorem Disposable.of_newDisposableStoreFactory {value : Option α} {f : Disposable α}
    (h : newDisposableStoreFactory value = .ok f) : ∃ v, f = .disposableStoreFactory (some v) := by
  cases value with
  | none => exact nomatch h
  | some v => exact ⟨v, (Except.ok.inj h).symm⟩

theorem of_map_ok {β γ : Type} {x : Except Error β} {g : β → γ} {c : γ}
    (h : g <$> x = .ok c) : ∃ b, x = .ok b ∧ g b = c := by
  cases x with
  | error e => exact nomatch h
  | ok b => exact ⟨b, rfl, Except.ok.inj h⟩

theorem of_bind_ok {β γ : Type} {x : Except Error β} {g : β → Except Error γ} {c : γ}
    (h : x >>= g = .ok c) : ∃ b, x = .ok b ∧ g b = .ok c := by
  cases x with
  | error e => exact nomatch h
  | ok b => exact ⟨b, rfl, h⟩

theorem Maker.ofMode (h : maker.run = .ok product) : product.OfMode maker.mode := by
  cases maker with
  | make value mode =>
    obtain ⟨f, hf, rfl⟩ := of_map_ok h
    cases mode with
    | makingNewValue => exact nomatch hf
    | storingValueAndMakerWillDisposingValue =>
      obtain ⟨v, rfl⟩ := StoreFactory.of_newStored hf
      exact ⟨v, .inl rfl⟩
  | makeFromFactory valueFactory mode =>
    obtain ⟨f, hf, rfl⟩ := of_map_ok h
    cases mode with
    | makingNewValue =>
      obtain rfl := StoreFactory.of_newFactory hf
      exact .inl rfl
    | storingValueAndMakerWillDisposingValue =>
      obtain ⟨value, -, hstored⟩ := of_bind_ok hf
      obtain ⟨v, rfl⟩ := StoreFactory.of_newStored hstored
      exact ⟨v, .inl rfl⟩
  | makeDisposable value mode =>
    obtain ⟨f, hf, rfl⟩ := of_map_ok h
    cases mode with
    | makingNewValue => exact nomatch hf
    | storingAndDisposingValue =>
      obtain ⟨v, rfl⟩ := Disposable.of_newDisposableStoreFactory hf
      exact ⟨v, rfl⟩
    | storingValueAndMakerWillDisposingValue =>
      obtain ⟨g, hg, hadapter⟩ := of_bind_ok hf
      obtain ⟨v, rfl⟩ := StoreFactory.of_newStored hg
      cases hadapter
      exact ⟨v, .inr rfl⟩
  | makeDisposableFromFactory valueFactory mode =>
    obtain ⟨f, hf, rfl⟩ := of_map_ok h
    cases mode with
    | makingNewValue =>
      obtain ⟨g, hg, hadapter⟩ := of_bind_ok hf
      obtain rfl := StoreFactory.of_newFactory hg
      cases hadapter
      exact .inr rfl
    | storingAndDisposingValue =>
      cases valueFactory with
      | none => exact nomatch hf
      | some made =>
        obtain ⟨value, -, hdisposable⟩ := of_bind_ok hf
        obtain ⟨v, rfl⟩ := Disposable.of_newDisposableStoreFactory hdisposable
        exact ⟨v, rfl⟩
    | storingValueAndMakerWillDisposingValue =>
      obtain ⟨value, -, hrest⟩ := of_bind_ok hf
      obtain ⟨g, hg, hadapter⟩ := of_bind_ok hrest
      obtain ⟨v, rfl⟩ := StoreFactory.of_newStored hg
      cases hadapter
      exact ⟨v, .inr rfl⟩

/-- The containers of a stored value dispose nothing. -/
theorem dispose_of_stored {value : α} (made : Made α) {container : Container α}
    (h : (StoreFactory.stored value).valueContainer made = .ok container) :
    container.dispose.2 = none := by
  cases h
  rfl

/-- The containers of a made value own it. -/
theorem storedDisposable_of_factory (made : Made α) {container : Container α}
    (h : StoreFactory.factory.valueContainer made = .ok container) :
    ∃ value, container = .storedDisposableValue (some value) := by
  obtain ⟨value, -, hv⟩ := of_bind_ok h
  cases value with
  | none => exact nomatch hv
  | some value => exact ⟨value, (Except.ok.inj hv).symm⟩

/-! ### The laws -/

variable {calls : List (Call α)} {s : State α} {disposed : Owner → Bool}

/-- Owners with nothing to dispose. -/
theorem Log.eq_nil {disposals : List (Owner × α)} {owned : Owner → Option α}
    (h : Log disposals disposed owned) (hnone : ∀ o, owned o = none) : disposals = [] := by
  refine List.eq_nil_iff_forall_not_mem.mpr ?_
  rintro ⟨o, value⟩ hmem
  have howned := ((h.mem o value).mp hmem).2
  rw [hnone o] at howned
  exact nomatch howned

/-- Nothing is to be disposed when the value is the maker's. -/
theorem Follows.disposals_of_maker {value : α} (hs : Follows product disposed s)
    (hproduct : product = .plain (.stored value) ∨
      product = .disposable (.notNeedDisposeStoreFactoryAdapter (some (.stored value)))) :
    s.disposals = [] := by
  refine hs.log.eq_nil fun o => ?_
  cases o with
  | factory => rcases hproduct with rfl | rfl <;> rfl
  | container i =>
    dsimp only [owned]
    cases hi : s.made[i]? with
    | none => rfl
    | some c =>
      obtain ⟨made, hgiven⟩ := hs.given c (List.mem_of_getElem? hi)
      rcases hproduct with rfl | rfl <;> exact dispose_of_stored made hgiven

/-- The factory disposes its value, and no container does. -/
theorem Follows.disposals_of_factory {value : α}
    (hs : Follows (.disposable (.disposableStoreFactory (some value))) disposed s) :
    s.disposals = if disposed .factory then [(.factory, value)] else [] := by
  have hmem (o : Owner) (v : α) : (o, v) ∈ s.disposals ↔
      (o = .factory ∧ v = value) ∧ disposed .factory = true := by
    rw [hs.log.mem o v]
    cases o with
    | factory =>
      constructor
      · rintro ⟨hd, hv⟩
        exact ⟨⟨rfl, (Option.some.inj hv).symm⟩, hd⟩
      · rintro ⟨⟨-, rfl⟩, hd⟩
        exact ⟨hd, rfl⟩
    | container i =>
      refine iff_of_false (fun h => ?_) fun h => nomatch h.1.1
      obtain ⟨c, hi, hc⟩ := Option.bind_eq_some_iff.mp h.2
      obtain ⟨made, hgiven⟩ := hs.given c (List.mem_of_getElem? hi)
      cases hgiven
      exact nomatch hc
  by_cases hd : disposed .factory = true
  · rw [if_pos hd]
    refine List.perm_singleton.mp ((List.perm_ext_iff_of_nodup hs.log.nodup
      (List.nodup_singleton _)).mpr ?_)
    rintro ⟨o, v⟩
    rw [hmem, List.mem_singleton, Prod.mk.injEq, and_iff_left hd]
  · rw [if_neg hd]
    refine List.eq_nil_iff_forall_not_mem.mpr ?_
    rintro ⟨o, v⟩ h
    exact hd ((hmem o v).mp h).2

/-- The containers dispose their values, and the factory does not. -/
theorem Follows.disposals_of_containers (hs : Follows product disposed s)
    (hproduct : product = .plain .factory ∨
      product = .disposable (.notNeedDisposeStoreFactoryAdapter (some .factory)))
    (owner : Owner) (value : α) : (owner, value) ∈ s.disposals ↔
      ∃ i, owner = .container i ∧ disposed (.container i) = true ∧
        s.made[i]? = some (.storedDisposableValue (some value)) := by
  rw [hs.log.mem owner value]
  cases owner with
  | factory =>
    refine iff_of_false (fun h => ?_) fun ⟨i, h, _⟩ => nomatch h
    rcases hproduct with rfl | rfl <;> exact nomatch h.2
  | container i =>
    constructor
    · rintro ⟨hd, howned⟩
      obtain ⟨c, hi, hc⟩ := Option.bind_eq_some_iff.mp howned
      obtain ⟨made, hgiven⟩ := hs.given c (List.mem_of_getElem? hi)
      have hmade : ∃ v, c = .storedDisposableValue (some v) := by
        rcases hproduct with rfl | rfl <;> exact storedDisposable_of_factory made hgiven
      obtain ⟨v, rfl⟩ := hmade
      cases hc
      exact ⟨i, rfl, hd, hi⟩
    · rintro ⟨j, hj, hd, hi⟩
      cases hj
      exact ⟨hd, Option.bind_eq_some_iff.mpr ⟨_, hi, rfl⟩⟩

/-- New values are disposed once. -/
theorem nodup_of_containers {disposals : List (Owner × α)} {made : List (Container α)}
    (hnodup : disposals.Nodup) (hmade : made.Nodup)
    (hmem : ∀ owner value, (owner, value) ∈ disposals → ∃ i : Nat, owner = .container i ∧
      made[i]? = some (.storedDisposableValue (some value))) :
    (disposals.map Prod.snd).Nodup := by
  refine hnodup.map_on ?_
  rintro ⟨o, v⟩ h ⟨o', v'⟩ h' heq
  obtain rfl : v = v' := heq
  obtain ⟨i, rfl, hi⟩ := hmem _ _ h
  obtain ⟨j, rfl, hj⟩ := hmem _ _ h'
  have hlt := (List.getElem?_eq_some_iff.mp hi).1
  rw [(List.getElem?_inj hlt hmade).mp (hi.trans hj.symm)]

/-- **Each value is disposed by its owner, and once.**  What a maker has made is
used by any calls.  If the value is the maker's nothing is disposed.  If it is
stored to be disposed, the factory disposes it when it is asked to the first
time.  If values are made, each container that was asked to dispose has disposed
its own, and no value is disposed twice as long as the made ones are new.  A
disposed container or factory throws `ObjectDisposedException`. -/
theorem disposed_by_owner (hmaker : maker.run = .ok product)
    (hrun : (machine product).run (start product) calls = some s) :
    (match maker.mode with
      | .storingValueAndMakerWillDisposingValue => s.disposals = []
      | .storingAndDisposingValue => ∃ value,
        product = .disposable (.disposableStoreFactory (some value)) ∧
          s.disposals = if Disposed calls .factory then [(.factory, value)] else []
      | .makingNewValue => s.disposals.Nodup ∧ (s.made.Nodup → (s.disposals.map Prod.snd).Nodup) ∧
        ∀ owner value, (owner, value) ∈ s.disposals ↔ ∃ i, owner = .container i ∧
          Disposed calls (.container i) = true ∧
            s.made[i]? = some (.storedDisposableValue (some value))) ∧
    (∀ i, Disposed calls (.container i) = true →
      call s (.value i) = some (s, .threw (.objectDisposed "Value"))) ∧
    (Disposed calls .factory = true → ∀ made,
      call s (.valueContainer made) = some (s, .threw (.objectDisposed "ValueContainer"))) := by
  have hs := Follows.run hrun
  refine ⟨?_, fun i hi => hs.value_disposed hi, fun hd made => hs.valueContainer_disposed hd made⟩
  have hmode := Maker.ofMode hmaker
  cases hm : maker.mode with
  | storingValueAndMakerWillDisposingValue =>
    rw [hm] at hmode
    obtain ⟨value, hproduct⟩ := hmode
    exact hs.disposals_of_maker hproduct
  | storingAndDisposingValue =>
    rw [hm] at hmode
    obtain ⟨value, rfl⟩ := hmode
    exact ⟨value, rfl, hs.disposals_of_factory⟩
  | makingNewValue =>
    rw [hm] at hmode
    have hmem := hs.disposals_of_containers hmode
    refine ⟨hs.log.nodup, fun hmade => ?_, hmem⟩
    refine nodup_of_containers hs.log.nodup hmade fun owner value h => ?_
    obtain ⟨i, howner, -, hi⟩ := (hmem owner value).mp h
    exact ⟨i, howner, hi⟩

/-- Two containers of made values: one is disposed twice, and its value throws. -/
theorem disposed_by_owner_two_containers :
    let product : Product Nat := .disposable (.notNeedDisposeStoreFactoryAdapter (some .factory))
    let calls : List (Call Nat) := [.valueContainer (.ok (some 5)), .valueContainer (.ok (some 6)),
      .disposeContainer 1 (some (.user 0)), .disposeContainer 1 none, .disposeFactory none]
    ∃ s, (machine product).run (start product) calls = some s ∧
      s.disposals = [(.container 1, 6)] ∧ (s.disposals.map Prod.snd).Nodup ∧
      call s (.value 1) = some (s, .threw (.objectDisposed "Value")) := by
  intro product calls
  have hmaker : (Maker.makeDisposableFromFactory (some (.ok none)) .makingNewValue).run =
    .ok product := rfl
  have hrun : (machine product).run (start product) calls = some _ := rfl
  have hlaws := disposed_by_owner hmaker hrun
  exact ⟨_, hrun, rfl, hlaws.1.2.1 (by decide), hlaws.2.1 1 rfl⟩

end Modes

end Garbage.MakingNewOrReusing
