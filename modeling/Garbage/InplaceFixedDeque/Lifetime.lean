import Garbage.InplaceFixedDeque.Refinement

/-!
# Which slots are alive

Here every constructor may throw.  A call carries the outcome of each
constructor it may run (`Call`), and an exception goes to the caller with the
deque as the call left it.  `Call.onLists` is what a call does to the bounded
lists, or the exception of the first of its constructors that throws.

The raw storage is the witness of the lifetimes: a construction over a live
object and a destruction of a dead slot are stuck, and nothing else changes a
slot.  So a run that is not stuck constructs and destroys in turns at each slot,
and what is dead at the end was destroyed as often as it was constructed.
-/

namespace Garbage.InplaceFixedDeque

open Foundation (Prog Machine)
open Foundation.Prog

namespace Deque

variable {T ε : Type} {n : Nat}

/-- The slot that `operator[]` addresses. -/
def slot (this : Deque T n) (index : Nat) : Nat :=
  if this.mBegin ≤ this.mEnd then index + this.mBegin
  else (index + this.mBegin) % this.capacity

theorem at_slot (d : Deque T n) (index : Nat) : d.at_ index = d.rawByteArray (d.slot index) := by
  rw [at_, slot]
  split <;> rfl

def destruct : Prog (Deque T n) ε PUnit := clear

variable {d : Deque T n} {l : List T}

theorem Rep.slot_eq (h : Rep d l) {i : Nat} (hi : i < l.length) :
    d.slot i = (d.mBegin + i) % n := by
  have hlt := h.ring.start_lt
  have hle := h.ring.length_le
  have he := h.mEnd_eq
  rw [slot, capacity, Nat.add_comm i]
  split
  · rw [Nat.mod_eq_of_lt]
    split at he <;> omega
  · rfl

/-- **The live slots are those of the indices below the size.** -/
theorem Rep.isSome_iff_slot (h : Rep d l) (p : Nat) :
    (d.rawByteArray p).isSome ↔ ∃ i, i < d.size ∧ p = d.slot i := by
  have hsize : d.size = l.length := h.size_eq
  rw [h.ring.isSome_iff, hsize]
  constructor
  · rintro ⟨i, hi, rfl⟩
    exact ⟨i, hi, (h.slot_eq hi).symm⟩
  · rintro ⟨i, hi, rfl⟩
    exact ⟨i, hi, h.slot_eq hi⟩

theorem wp_destruct (h : Rep d l) {E : ε → Deque T n → Prop} :
    wp destruct (fun _ d' => ∀ p, d'.rawByteArray p = none) E d :=
  wp_clear h fun _ hraw => hraw

end Deque

/-- A round of a copy to a pointer, which advances without exceptions. -/
def Round.toPointer {T ε : Type} (construct : Except ε T) (advanceSource : Option ε) :
    Round T ε :=
  { construct, advanceDestination := none, advanceSource }

/-- A call of a modifying member with the outcomes of the constructors it may
run, and of the increments of a source that is not a deque. -/
inductive Call (T ε ι : Type)
  | pushBack (value : Except ε T)
  | pushFront (value : Except ε T)
  | emplaceBack (value : Except ε T)
  | emplaceFront (value : Except ε T)
  | popBack
  | popFront
  | clear
  | assign (source : List (Except ε T × Option ε))
  | assignDeque (rhs : ι) (copy : Nat → T → Except ε T)

namespace Call

variable {T ε ι : Type} [DecidableEq ι] {n : Nat}

/-- The code of a call on the deque `this` among the deques `s`. -/
def code (s : ι → Deque T n) (this : ι) : Call T ε ι → Prog (Deque T n) ε PUnit
  | pushBack value => Deque.pushBack value
  | pushFront value => Deque.pushFront value
  | emplaceBack value => Deque.emplaceBack value
  | emplaceFront value => Deque.emplaceFront value
  | popBack => Deque.popBack
  | popFront => Deque.popFront
  | clear => Deque.clear
  | assign source => Deque.assign (source.map fun r => Round.toPointer r.1 r.2)
  | assignDeque rhs copy => if rhs = this then pure PUnit.unit
    else Deque.assignInternal
      ((s rhs).iterate.reduceOption.mapIdx fun i v => Round.toPointer (copy i v) none)

/-- One call on one of the deques, whether it returns or throws. -/
def step (s : ι → Deque T n) (this : ι) (call : Call T ε ι) : Option (ι → Deque T n) :=
  (call.code s this (s this)).map fun r => Function.update s this r.2

/-- The deques of a program whose constructors may throw. -/
def machine (T ε ι : Type) [DecidableEq ι] (n : Nat) :
    Machine (ι → Deque T n) (ι × Call T ε ι) where
  init s := s = fun _ => Deque.make T n
  next s a := step s a.1 a.2

/-- What the call does to the list bounded by `n` that stands for `this`: the new list,
or the exception of the first constructor, or increment of a source, that throws. -/
def onLists (n : Nat) (l : ι → List T) (this : ι) : Call T ε ι → Except ε (List T)
  | pushBack value | emplaceBack value =>
    if (l this).length < n then value.map fun v => l this ++ [v] else .ok (l this)
  | pushFront value | emplaceFront value =>
    if (l this).length < n then value.map fun v => v :: l this else .ok (l this)
  | popBack => .ok (l this).dropLast
  | popFront => .ok (l this).tail
  | clear => .ok []
  | assign source =>
    (source.take n).mapM fun item => item.2.elim item.1 fun e => item.1.bind fun _ => .error e
  | assignDeque rhs copy =>
    if rhs = this then .ok (l this) else (((l rhs).mapIdx copy).take n).mapM id

/-- What is left of the list `l` when the call throws: an assignment empties it. -/
def onThrow (l : List T) : Call T ε ι → List T
  | assign _ | assignDeque _ _ => []
  | pushBack _ | pushFront _ | emplaceBack _ | emplaceFront _ | popBack | popFront | clear => l

/-- The list of `this` after the call, whether it returns or throws. -/
def after (n : Nat) (l : ι → List T) (this : ι) (call : Call T ε ι) : List T :=
  match call.onLists n l this with
  | .ok l' => l'
  | .error _ => call.onThrow (l this)

/-- The lists after a sequence of calls. -/
def lists (n : Nat) (calls : List (ι × Call T ε ι)) (l : ι → List T) : ι → List T :=
  calls.foldl (fun l a => Function.update l a.1 (a.2.after n l a.1)) l

/-- What a call that throws `e` leaves: a push its deque as it was, an assignment
an empty one, and no other call throws. -/
def Thrown (d : Deque T n) (e : ε) (d' : Deque T n) : Call T ε ι → Prop
  | pushBack value | pushFront value | emplaceBack value | emplaceFront value =>
    value = .error e ∧ d' = d
  | assign _ | assignDeque _ _ => d'.mBegin = 0 ∧ d'.mEnd = 0 ∧ ∀ p, d'.rawByteArray p = none
  | popBack | popFront | clear => False

theorem outcome_toPointer (value : Except ε T) (advanceSource : Option ε) :
    (Round.toPointer value advanceSource).outcome =
      advanceSource.elim value fun e => value.bind fun _ => .error e := by
  cases value <;> cases advanceSource <;> rfl

/-- Each call keeps its deque a ring of the list it has to hold, also when it throws. -/
theorem wp_code {s : ι → Deque T n} {l : ι → List T} (h : ∀ i, (s i).Rep (l i)) (this : ι)
    (call : Call T ε ι) :
    wp (call.code s this) (fun _ d => ∃ l', call.onLists n l this = .ok l' ∧ d.Rep l')
      (fun e d => call.onLists n l this = .error e ∧ d.Rep (call.onThrow (l this)) ∧
        call.Thrown (s this) e d) (s this) := by
  have hl := h this
  have hn : 0 < n := Nat.zero_lt_of_lt hl.ring.start_lt
  have hempty : ∀ raw : Storage T, (∀ p, raw p = none) → Deque.Rep (⟨raw, 0, 0⟩ : Deque T n) [] :=
    fun raw hraw => Deque.Rep.of_ring (Foundation.Ring.nil hn hraw) (by simp)
  cases call with
  | pushBack value | emplaceBack value =>
    apply Deque.wp_emplaceBack hl
    · exact fun hfull => ⟨l this, if_neg (by omega), hl⟩
    · rintro v d rfl hroom hd
      exact ⟨_, if_pos hroom, hd⟩
    · rintro e rfl hroom
      exact ⟨if_pos hroom, hl, rfl, rfl⟩
  | pushFront value | emplaceFront value =>
    apply Deque.wp_emplaceFront hl
    · exact fun hfull => ⟨l this, if_neg (by omega), hl⟩
    · rintro v d rfl hroom hd
      exact ⟨_, if_pos hroom, hd⟩
    · rintro e rfl hroom
      exact ⟨if_pos hroom, hl, rfl, rfl⟩
  | popBack => exact (Deque.wp_popBack hl).imp fun _ _ hd => ⟨_, rfl, hd⟩
  | popFront => exact (Deque.wp_popFront hl).imp fun _ _ hd => ⟨_, rfl, hd⟩
  | clear => exact Deque.wp_clear hl fun raw hraw => ⟨[], rfl, hempty raw hraw⟩
  | assign source =>
    have hsource : ((source.map fun r => Round.toPointer r.1 r.2).take n).mapM Round.outcome =
        onLists n l this (.assign source : Call T ε ι) := by
      rw [← List.map_take, List.mapM_map, onLists]
      exact congrArg (List.mapM · _) (funext fun r => outcome_toPointer r.1 r.2)
    apply Deque.wp_assignInternal hl
    · intro round hround
      obtain ⟨r, -, rfl⟩ := List.mem_map.mp hround
      rfl
    · exact fun vs _ hvs hd => ⟨vs, hsource ▸ hvs, hd⟩
    · exact fun e raw he hraw => ⟨hsource ▸ he, hempty raw hraw, rfl, rfl, hraw⟩
  | assignDeque rhs copy =>
    rw [code, wp_ite]
    constructor
    · exact fun hself => ⟨l this, if_pos hself, hl⟩
    · intro hother
      have hsource : (((l rhs).mapIdx fun i v => Round.toPointer (copy i v) none).take n).mapM
          Round.outcome = onLists n l this (.assignDeque rhs copy) := by
        have hrounds : (l rhs).mapIdx (fun i v => Round.toPointer (copy i v) none) =
            ((l rhs).mapIdx copy).map fun value => Round.toPointer value none := by
          refine List.ext_getElem? fun i => ?_
          simp only [List.getElem?_mapIdx, List.getElem?_map, Option.map_map]
          rfl
        rw [onLists, if_neg hother, hrounds, ← List.map_take, List.mapM_map]
        exact congrArg (List.mapM · _) (funext fun value => outcome_toPointer value none)
      rw [(h rhs).reduceOption_iterate]
      apply Deque.wp_assignInternal hl
      · intro round hround
        obtain ⟨i, hi, rfl⟩ := List.mem_mapIdx.mp hround
        rfl
      · exact fun vs _ hvs hd => ⟨vs, hsource ▸ hvs, hd⟩
      · exact fun e raw he hraw => ⟨hsource ▸ he, hempty raw hraw, rfl, rfl, hraw⟩

/-- A call returns or throws as the list says, and leaves the list. -/
theorem code_eq {s : ι → Deque T n} {l : ι → List T} (h : ∀ i, (s i).Rep (l i)) (this : ι)
    (call : Call T ε ι) : ∃ d,
      call.code s this (s this) = some ((call.onLists n l this).map fun _ => PUnit.unit, d) ∧
      d.Rep (call.after n l this) ∧
      ∀ e, call.onLists n l this = .error e → call.Thrown (s this) e d := by
  obtain ⟨r, d, hrun, hok, hthrow⟩ := (wp_code h this call).outcome
  refine ⟨d, ?_⟩
  rw [hrun]
  cases r with
  | ok u =>
    obtain ⟨l', hl', hd⟩ := hok u rfl
    rw [after, hl']
    exact ⟨rfl, hd, fun e he => by cases he⟩
  | error e =>
    obtain ⟨hl', hd, hthrown⟩ := hthrow e rfl
    rw [after, hl']
    exact ⟨rfl, hd, fun e' he => Except.error.inj he ▸ hthrown⟩

theorem step_rep {s : ι → Deque T n} {l : ι → List T} (h : ∀ i, (s i).Rep (l i)) (this : ι)
    (call : Call T ε ι) : ∃ s', call.step s this = some s' ∧
      ∀ i, (s' i).Rep (Function.update l this (call.after n l this) i) := by
  obtain ⟨d, hrun, hd, -⟩ := code_eq h this call
  refine ⟨Function.update s this d, by rw [step, hrun, Option.map_some], fun i => ?_⟩
  by_cases hi : i = this
  · subst hi
    rw [Function.update_self, Function.update_self]
    exact hd
  · rw [Function.update_of_ne hi, Function.update_of_ne hi]
    exact h i

theorem run_rep (calls : List (ι × Call T ε ι)) : ∀ {s : ι → Deque T n} {l : ι → List T},
    (∀ i, (s i).Rep (l i)) → ∃ s', (machine T ε ι n).run s calls = some s' ∧
      ∀ i, (s' i).Rep (lists n calls l i) := by
  induction calls with
  | nil => intro s l h; exact ⟨s, rfl, h⟩
  | cons a calls ih =>
    intro s l h
    obtain ⟨m, hm, hrep⟩ := step_rep h a.1 a.2
    obtain ⟨s', hs', hrep'⟩ := ih hrep
    refine ⟨s', ?_, hrep'⟩
    rw [Machine.run_cons]
    show (a.2.step s a.1).bind _ = _
    rw [hm]
    exact hs'

/-- **The lifetimes of the slots.**  Any sequence of calls on any number of
deques, whichever constructors throw, runs without a construction over a live
object and without a destruction of a dead one.  After it each deque answers as
the list that the same calls give, and its live slots are those that `operator[]`
addresses below the size.  A further call throws exactly if a constructor that it
runs does, and leaves the list it has to; one that throws leaves its deque as it was
if it is a push, and empty if it is an assignment.  The destructor leaves nothing
alive. -/
theorem live_slots_are_items (hn : 0 < n) (calls : List (ι × Call T ε ι)) :
    ∃ s, (machine T ε ι n).run (fun _ => Deque.make T n) calls = some s ∧
      (∀ i, (s i).Agrees (lists n calls (fun _ => []) i)) ∧
      (∀ i p, ((s i).rawByteArray p).isSome ↔ ∃ k, k < (s i).size ∧ p = (s i).slot k) ∧
      (∀ i (call : Call T ε ι), ∃ d, call.code s i (s i) = some
          ((call.onLists n (lists n calls fun _ => []) i).map fun _ => PUnit.unit, d) ∧
        d.Agrees (call.after n (lists n calls fun _ => []) i) ∧
        (∀ p, (d.rawByteArray p).isSome ↔ ∃ k, k < d.size ∧ p = d.slot k) ∧
        ∀ e, call.onLists n (lists n calls fun _ => []) i = .error e → call.Thrown (s i) e d) ∧
      ∀ i, ∃ d, (Deque.destruct : Prog (Deque T n) ε PUnit) (s i) = some (.ok PUnit.unit, d) ∧
        ∀ p, d.rawByteArray p = none := by
  obtain ⟨s, hs, hrep⟩ := run_rep (n := n) calls (s := fun _ => Deque.make T n)
    (l := fun _ => []) fun _ => Deque.rep_make hn
  refine ⟨s, hs, fun i => (hrep i).agrees, fun i => (hrep i).isSome_iff_slot, fun i call => ?_,
    fun i => ?_⟩
  · obtain ⟨d, hrun, hd, hthrow⟩ := code_eq hrep i call
    exact ⟨d, hrun, hd.agrees, hd.isSome_iff_slot, hthrow⟩
  · obtain ⟨_, d, hrun, hd⟩ := (Deque.wp_destruct (hrep i) (E := fun (_ : ε) _ => False)).returns
    exact ⟨d, hrun, hd⟩

/-- A run on two slots: the second item of an assignment throws, and a push
follows.  The next push throws. -/
theorem live_slots_are_items_assign : 0 < 2 ∧
    ∃ s d, (machine Nat String Unit 2).run (fun _ => Deque.make Nat 2)
        [((), pushBack (.ok 7)), ((), assign [(.ok 8, none), (.error "no memory", none)]),
          ((), pushFront (.ok 9))] = some s ∧ (s ()).Agrees [9] ∧
      (∀ p, ((s ()).rawByteArray p).isSome ↔ ∃ k, k < (s ()).size ∧ p = (s ()).slot k) ∧
      (pushBack (.error "no memory") : Call Nat String Unit).code s () (s ()) =
        some (.error "no memory", d) ∧ d = s () := by
  refine ⟨by decide, ?_⟩
  obtain ⟨s, hs, hagrees, hslots, hcall, -⟩ := live_slots_are_items (T := Nat) (ε := String)
    (ι := Unit) (n := 2) (by decide) [((), pushBack (.ok 7)),
      ((), assign [(.ok 8, none), (.error "no memory", none)]), ((), pushFront (.ok 9))]
  obtain ⟨d, hd, -, -, hthrown⟩ := hcall () (pushBack (.error "no memory"))
  exact ⟨s, d, hs, hagrees (), hslots (), hd, (hthrown _ rfl).2⟩

end Call

end Garbage.InplaceFixedDeque
