import Garbage.RandomAccessList.Simulation

/-!
# The calls on one list

Every call of `ListCall` comes to its end over a sound implementation, and
leaves a `Changed` list.  Those that only read leave it as it was.  `resize`
puts in or takes out, and the rounds of `removeIf` take out one element or stay
where they are.
-/

namespace Garbage.RandomAccessList

open Foundation (Prog Machine)
open Foundation.Prog
open AvlTreeStump

variable {α ε : Type} {p : Ptr} {v : α} {cells cells' cells'' ca cb : List (Cell α)}

theorem Changed.shrink {s s' s'' : Tree α} (hsub : cells' ⊆ cells) (hsub' : cells'' ⊆ cells')
    (h : Changed s s' cells cells') (h' : Changed s' s'' cells' cells'') :
    Changed s s'' cells cells'' := by
  refine ⟨h'.holds, h.ends.trans h'.ends, h.outside.trans (h'.outside.mono ?_),
    fun c hc => .inl (hsub (hsub' hc))⟩
  rw [h.ends.own_eq]
  exact own_subset hsub

namespace Implementation.Sound

variable {this : Implementation α ε} {moves : Prop} {E : ε → Tree α → Prop} {s : Tree α}

/-! ### Access -/

theorem exists_last (hne : 0 < cells.length) : ∃ ca c, cells = ca ++ [c] :=
  ⟨cells.dropLast, cells.getLast (List.ne_nil_of_length_pos hne),
    (List.dropLast_append_getLast _).symm⟩

theorem wp_back (hS : this.Sound moves) {Q : Ptr → Tree α → Prop}
    (hH : Holds s (ca ++ [(p, v)])) (hQ : Q p s) : wp this.back Q E s := by
  unfold Implementation.back
  rw [wp_bind, Container.wp_end_]
  exact hS.wp_decrement hH hQ

theorem wp_traverse (hS : this.Sound moves) {Q : List α → Tree α → Prop} (hH : Holds s cells)
    (hQ : Q (cells.map Prod.snd) s) : wp this.traverse Q E s := by
  unfold Implementation.traverse
  rw [wp_bind]
  refine hS.getBegin hH ?_
  rw [wp_bind, Container.wp_end_]
  refine wp_rounds (I := fun n c s' => s' = s ∧ ∃ gone rest : List (Cell α),
    cells = gone ++ rest ∧ c = (startOf s.stump.end_ rest, gone.map Prod.snd) ∧ n = rest.length) ?_
    cells.length ⟨rfl, [], cells, rfl, rfl, rfl⟩ hH.length_le
  rintro n c s' ⟨rfl, gone, rest, rfl, rfl, rfl⟩
  cases rest with
  | nil =>
    rw [List.append_nil] at hQ
    rw [if_pos (startOf_nil _), wp_pure]
    exact hQ
  | cons d rest =>
    have hne : d.1 ≠ s'.stump.end_ := fun he => hH.not_gap (.inr he)
    rw [startOf_cons, if_neg hne, wp_bind]
    refine Container.wp_dereference hH (v := d.2) (by simp) ?_
    rw [wp_bind]
    refine hS.wp_increment gone (v := d.2) hH ?_
    rw [wp_pure]
    exact ⟨rest.length, Nat.lt_succ_self _, rfl, gone ++ [d], rest, by simp, by simp, rfl⟩

/-! ### Erasure -/

theorem wp_popBack (hS : this.Sound moves) (hH : Holds s (ca ++ [(p, v)])) :
    wp this.popBack (fun _ s' => Changed s s' (ca ++ [(p, v)]) ca) E s := by
  unfold Implementation.popBack
  rw [wp_bind, Container.wp_end_, wp_bind]
  refine hS.wp_decrement hH ?_
  rw [wp_bind]
  refine (hS.wp_erase hH).imp ?_
  rintro _ s' ⟨-, hC⟩
  rw [wp_pure]
  rwa [List.append_nil] at hC

theorem wp_popFront (hS : this.Sound moves) (hH : Holds s ((p, v) :: cells)) :
    wp this.popFront (fun _ s' => Changed s s' ((p, v) :: cells) cells) E s := by
  unfold Implementation.popFront
  rw [wp_bind]
  refine hS.getBegin hH ?_
  rw [wp_bind]
  refine (hS.wp_erase (show Holds s ([] ++ (p, v) :: cells) from hH)).imp ?_
  rintro _ s' ⟨-, hC⟩
  exact hC

theorem wp_popBackTimes (hS : this.Sound moves) (n : Nat) : ∀ {cells : List (Cell α)} {s : Tree α},
    Holds s cells → n ≤ cells.length → wp (this.popBackTimes n) (fun _ s' =>
      Changed s s' cells (cells.take (cells.length - n))) E s := by
  induction n with
  | zero =>
    intro cells s hH _
    show wp (pure PUnit.unit) _ E s
    rw [wp_pure, Nat.sub_zero, List.take_length]
    exact Changed.refl hH
  | succ n ih =>
    intro cells s hH hn
    obtain ⟨ca, c, rfl⟩ := exists_last (Nat.lt_of_lt_of_le (Nat.succ_pos n) hn)
    rw [List.length_append, List.length_singleton] at hn
    show wp (do
      this.popBack
      this.popBackTimes n) _ E s
    rw [wp_bind]
    refine (hS.wp_popBack (v := c.2) hH).imp ?_
    intro _ s' hC
    refine (ih hC.holds (Nat.le_of_succ_le_succ hn)).imp ?_
    intro _ s'' hC'
    have htake : (ca ++ [c]).take ((ca ++ [c]).length - (n + 1)) = ca.take (ca.length - n) := by
      rw [List.length_append, List.length_singleton, Nat.add_sub_add_right,
        List.take_append_of_le_length (Nat.sub_le _ _)]
    rw [htake]
    exact hC.shrink (List.subset_append_left _ _) (List.take_subset _ _) hC'

/-- **`resize`** -/
theorem wp_resize (hS : this.Sound moves) (alloc : Allocator) (count : Nat) (value : α)
    (hH : Holds s cells) :
    wp (this.resize alloc count value) (fun _ s' => ∃ cells', Changed s s' cells cells') E s := by
  unfold Implementation.resize
  rw [wp_bind]
  refine Container.wp_size hH ?_
  rw [wp_ite]
  refine ⟨fun _ => ?_, fun hlt => ?_⟩
  · rw [wp_bind]
    refine hS.getBegin hH ?_
    rw [wp_bind]
    have hinsert := hS.wp_insertRange (E := E) alloc
      (List.replicate (count - cells.length) value) (show Holds s ([] ++ cells) from hH)
    refine hinsert.imp ?_
    rintro _ s' ⟨news, -, -, -, hC⟩
    exact ⟨_, hC⟩
  · exact (hS.wp_popBackTimes _ hH (Nat.sub_le _ _)).imp fun _ _ hC => ⟨_, hC⟩

theorem wp_removeIfRounds (hS : this.Sound moves) (q : α → Bool) (n : Nat) :
    ∀ {ca cb : List (Cell α)} {s : Tree α}, Holds s (ca ++ cb) →
      wp (this.removeIfRounds q s.stump.end_ n (startOf s.stump.end_ cb))
        (fun _ s' => ∃ cells', cells' ⊆ ca ++ cb ∧ Changed s s' (ca ++ cb) cells') E s := by
  induction n with
  | zero =>
    intro ca cb s hH
    exact ⟨_, List.Subset.refl _, Changed.refl hH⟩
  | succ n ih =>
    intro ca cb s hH
    unfold Implementation.removeIfRounds
    cases cb with
    | nil =>
      rw [startOf_nil, if_pos rfl, wp_pure]
      exact ⟨_, List.Subset.refl _, Changed.refl hH⟩
    | cons c cb =>
      have hne : c.1 ≠ s.stump.end_ := fun he => hH.not_gap (.inr he)
      rw [startOf_cons, if_neg hne, wp_bind]
      refine Container.wp_dereference hH (v := c.2) (by simp) ?_
      rw [wp_ite]
      refine ⟨fun _ => ?_, fun _ => ?_⟩
      · rw [wp_bind]
        refine (hS.wp_erase (v := c.2) hH).imp ?_
        rintro x s' ⟨rfl, hC⟩
        dsimp only
        rw [← hC.ends.2]
        refine (ih hC.holds).imp ?_
        rintro _ s'' ⟨cells', hsub, hC'⟩
        have hsub' : ca ++ cb ⊆ ca ++ (c.1, c.2) :: cb := by
          intro x hx
          simp only [List.mem_append, List.mem_cons] at hx ⊢
          tauto
        exact ⟨cells', List.Subset.trans hsub hsub', hC.shrink hsub' hsub hC'⟩
      · exact ih hH

/-! ### All calls -/

theorem wp_runAt {β : Type} (hS : this.Sound moves) {pos : Nat} {x : Ptr → Prog (Tree α) ε β}
    {Q : PUnit → Tree α → Prop} (hH : Holds s (ca ++ cb)) (hpos : ca.length = pos)
    (hx : wp (x (startOf s.stump.end_ cb)) (fun _ s' => Q PUnit.unit s') E s) :
    wp (this.runAt pos x) Q E s := by
  unfold Implementation.runAt Implementation.run
  rw [wp_bind]
  refine hS.wp_iteratorAt hH hpos ?_
  rw [wp_bind]
  exact hx

/-- **Every valid call on a list** comes to its end. -/
theorem wp_execListCall (hS : this.Sound moves) (alloc : Allocator) (call : ListCall α)
    (hH : Holds s cells) (hv : call.Valid cells.length) :
    wp (this.execListCall alloc call) (fun _ s' => ∃ cells', Changed s s' cells cells') E s := by
  have hsame : ∃ cells', Changed s s cells cells' := ⟨_, Changed.refl hH⟩
  cases call with
  | begin_ => exact (wp_bind _ _).mpr (hS.getBegin hH hsame)
  | increment pos =>
    obtain ⟨ca, cb, rfl, rfl⟩ := exists_split (Nat.le_of_lt hv)
    cases cb with
    | nil => exact absurd hv (by simp [ListCall.Valid])
    | cons c cb => exact hS.wp_runAt hH rfl (hS.wp_increment ca (v := c.2) hH hsame)
  | decrement pos =>
    obtain ⟨hpos, hle⟩ := hv
    obtain ⟨ca, cb, rfl, rfl⟩ := exists_split hle
    obtain ⟨ca, c, rfl⟩ := exists_last hpos
    have hc : Holds s (ca ++ (c.1, c.2) :: cb) := by simpa using hH
    exact hS.wp_runAt hH rfl (hS.wp_decrement hc hsame)
  | advance pos k =>
    obtain ⟨hle, hlow, hhigh⟩ := hv
    obtain ⟨ca, cb, rfl, rfl⟩ := exists_split hle
    exact hS.wp_runAt hH rfl (hS.wp_advance hH hlow hhigh fun _ => hsame)
  | distance left right =>
    obtain ⟨hl, hr⟩ := hv
    obtain ⟨da, db, hd, rfl⟩ := exists_split hr
    obtain ⟨ca, cb, rfl, rfl⟩ := exists_split hl
    refine hS.wp_runAt hH rfl ?_
    rw [wp_bind]
    refine hS.wp_iteratorAt (hd ▸ hH) rfl ?_
    exact hS.distance hH hd fun _ => hsame
  | size => exact (wp_bind _ _).mpr (Container.wp_size hH hsame)
  | algorithmicComplexity =>
    obtain ⟨T, hR, hT⟩ := hH.tree
    unfold Implementation.execListCall Implementation.run algorithmicComplexity
    rw [wp_bind, wp_bind, wp_get, wp_bind, hR.root]
    exact wp_nodeHeight hR.settled.counted (fun x hx => hR.settled.live x
      (List.mem_append_left _ hx)) hsame
  | front => exact (wp_bind _ _).mpr (hS.getBegin hH hsame)
  | back =>
    obtain ⟨ca, c, rfl⟩ := exists_last hv
    exact (wp_bind _ _).mpr (hS.wp_back (v := c.2) hH hsame)
  | index pos => exact (wp_bind _ _).mpr (hS.getByIndex _ hH hsame)
  | at_ pos =>
    unfold Implementation.execListCall Implementation.run Implementation.at_
    rw [wp_bind, wp_bind]
    refine Container.wp_size hH ?_
    rw [wp_ite]
    refine ⟨fun _ => hsame, fun _ => ?_⟩
    rw [wp_bind]
    exact hS.getByIndex _ hH hsame
  | traverse => exact (wp_bind _ _).mpr (hS.wp_traverse hH hsame)
  | selfCheck => exact hS.selfCheck hH hsame
  | emplaceBack value =>
    exact (wp_bind _ _).mpr ((hS.wp_emplaceBack alloc value hH).imp fun _ _ h => ⟨_, h.2⟩)
  | emplaceFront value =>
    unfold Implementation.execListCall Implementation.run Implementation.emplaceFront
    rw [wp_bind, wp_bind]
    refine hS.getBegin hH ?_
    exact (hS.wp_emplace alloc value (show Holds s ([] ++ cells) from hH)).imp
      fun _ _ h => ⟨_, h.2⟩
  | popBack =>
    obtain ⟨ca, c, rfl⟩ := exists_last hv
    exact (hS.wp_popBack (v := c.2) hH).imp fun _ _ h => ⟨_, h⟩
  | popFront =>
    cases cells with
    | nil => exact absurd hv (by simp [ListCall.Valid])
    | cons c cells => exact (hS.wp_popFront (v := c.2) hH).imp fun _ _ h => ⟨_, h⟩
  | resize count value => exact hS.wp_resize alloc count value hH
  | removeIf q n =>
    unfold Implementation.execListCall Implementation.removeIf
    rw [wp_bind]
    refine hS.getBegin hH ?_
    rw [wp_bind, Container.wp_end_]
    exact (hS.wp_removeIfRounds q n (show Holds s ([] ++ cells) from hH)).imp
      fun _ _ ⟨cells', _, hC⟩ => ⟨cells', hC⟩

end Implementation.Sound

end Garbage.RandomAccessList
