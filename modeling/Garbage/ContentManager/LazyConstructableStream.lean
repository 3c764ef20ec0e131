import Garbage.Foundation.SeekableStream

/-!
# The stream that is created when it is needed

`LazyConstructableStream` has a position of its own until its inner stream is
created by `Read`, `Write`, `SetLength`, or by `Length` where the size is not
known otherwise; from then on everything goes to the inner stream.  The inner
stream is a `Lazy` one: an exception on the creation is kept and thrown again.

`Same` puts the operations side by side on the lazy stream and on the stream
that the factory returns.  They are the same on every sequence of operations
without a `Seek` from the end, by a distance other than 0, before the creation
(`same_iff`); there `VirtualSeek` takes the distance off the length, where a
stream adds it.

An `Int` stands for a `long`: positions, offsets and lengths are such that no sum of
them wraps around.  (In `Disposal` they do wrap.)
-/

namespace Garbage.ContentManager

open Foundation (Prog SeekableStream SeekOrigin ByteStream)
open Foundation.SeekableStream (content position moveTo target)

variable {σ ε : Type} [SeekableStream σ ε]

/-- A `Lazy<Stream>`; an exception of its factory is kept. -/
inductive LazyStream (σ : Type)
  | notCreated
  | created (stream : σ)
  | faulted
  deriving DecidableEq

structure LazyConstructableStream (σ : Type) where
  stream : LazyStream σ
  virtualPosition : Int
  deriving DecidableEq

namespace LazyConstructableStream

def new : LazyConstructableStream σ := { stream := .notCreated, virtualPosition := 0 }

def permissiveStream (this : LazyConstructableStream σ) : Option σ :=
  match this.stream with
  | .created s => some s
  | _ => none

/-- `_stream.Value`: create the inner stream and go to the virtual position. -/
def create (streamFactory : σ) : Prog (LazyConstructableStream σ) ε PUnit := fun this =>
  match this.stream with
  | .created _ => some (.ok PUnit.unit, this)
  | .faulted => some (.error (SeekableStream.outOfRange σ), this)
  | .notCreated =>
    match SeekableStream.setPosition this.virtualPosition streamFactory with
    | none => none
    | some (.ok _, s) => some (.ok PUnit.unit, { this with stream := .created s })
    | some (.error e, _) => some (.error e, { this with stream := .faulted })

/-- An operation on the inner stream. -/
def onStream {β : Type} (x : Prog σ ε β) : Prog (LazyConstructableStream σ) ε β := fun this =>
  match this.stream with
  | .created s =>
    match x s with
    | none => none
    | some (r, s') => some (r, { this with stream := .created s' })
  | _ => none

/-- An operation on `_stream.Value`. -/
def onValue {β : Type} (streamFactory : σ) (x : Prog σ ε β) :
    Prog (LazyConstructableStream σ) ε β := do
  create streamFactory
  onStream x

def flush : Prog (LazyConstructableStream σ) ε PUnit := do
  let this ← Prog.get
  match this.permissiveStream with
  | none => pure PUnit.unit
  | some _ => onStream SeekableStream.flush

/-- `Length`; `optimizedSize` is what the size getter returns now, `none` where
there is no getter. -/
def length (streamFactory : σ) (optimizedSize : Option Int) :
    Prog (LazyConstructableStream σ) ε Int := do
  let this ← Prog.get
  match this.permissiveStream with
  | some s => pure (SeekableStream.length s)
  | none =>
    match optimizedSize with
    | some size => pure size
    | none => onValue streamFactory do
      let s ← Prog.get
      pure (SeekableStream.length s)

def setVirtualPosition (value : Int) : Prog (LazyConstructableStream σ) ε PUnit :=
  Prog.modify fun this => { this with virtualPosition := value }

def virtualSeek (streamFactory : σ) (optimizedSize : Option Int) (offset : Int)
    (origin : SeekOrigin) : Prog (LazyConstructableStream σ) ε Int := do
  let this ← Prog.get
  match origin with
  | .begin_ => setVirtualPosition offset
  | .current => setVirtualPosition (this.virtualPosition + offset)
  | .end_ => do
    let size ← length streamFactory optimizedSize
    setVirtualPosition (size - offset)
  let this ← Prog.get
  match this.permissiveStream with
  | none => pure this.virtualPosition
  | some _ => do
    onStream (SeekableStream.setPosition this.virtualPosition)
    pure this.virtualPosition

def seek (streamFactory : σ) (optimizedSize : Option Int) (offset : Int) (origin : SeekOrigin) :
    Prog (LazyConstructableStream σ) ε Int := do
  let this ← Prog.get
  match this.permissiveStream with
  | none => virtualSeek streamFactory optimizedSize offset origin
  | some _ => onStream (SeekableStream.seek offset origin)

def getPosition (this : LazyConstructableStream σ) : Int :=
  match this.permissiveStream with
  | none => this.virtualPosition
  | some s => position s

def setPosition (value : Int) : Prog (LazyConstructableStream σ) ε PUnit := do
  let this ← Prog.get
  match this.permissiveStream with
  | none => setVirtualPosition value
  | some _ => onStream (SeekableStream.setPosition value)

/-- The content: that of the inner stream, or of the one that would be created. -/
def getContent (streamFactory : σ) (this : LazyConstructableStream σ) : List UInt8 :=
  content (this.permissiveStream.getD streamFactory)

end LazyConstructableStream

/-! ### The operations -/

inductive StreamOp
  | seek (offset : Int) (origin : SeekOrigin)
  | getPosition
  | setPosition (value : Int)
  | length
  | read (count : Nat)
  | write (bytes : List UInt8)
  | setLength (value : Int)
  | flush
  deriving DecidableEq

inductive Output
  | nothing
  | number (n : Int)
  | bytes (bytes : List UInt8)
  deriving DecidableEq

namespace StreamOp

def number {τ : Type} (x : Prog τ ε Int) : Prog τ ε Output := do
  let n ← x
  pure (.number n)

def nothing {τ : Type} (x : Prog τ ε PUnit) : Prog τ ε Output := do
  x
  pure .nothing

def bytes {τ : Type} (x : Prog τ ε (List UInt8)) : Prog τ ε Output := do
  let bytes ← x
  pure (.bytes bytes)

def exec : StreamOp → Prog σ ε Output
  | .seek offset origin => number (SeekableStream.seek offset origin)
  | .getPosition => number fun s => some (.ok (position s), s)
  | .setPosition value => nothing (SeekableStream.setPosition value)
  | .length => number fun s => some (.ok (SeekableStream.length s), s)
  | .read count => bytes (SeekableStream.read count)
  | .write bytes => nothing (SeekableStream.write bytes)
  | .setLength value => nothing (SeekableStream.setLength value)
  | .flush => nothing SeekableStream.flush

/-- The operation on the lazy stream. -/
def execLazy (streamFactory : σ) (optimizedSize : Option Int) :
    StreamOp → Prog (LazyConstructableStream σ) ε Output
  | .seek offset origin =>
    number (LazyConstructableStream.seek streamFactory optimizedSize offset origin)
  | .getPosition => number fun this => some (.ok this.getPosition, this)
  | .setPosition value => nothing (LazyConstructableStream.setPosition value)
  | .length => number (LazyConstructableStream.length streamFactory optimizedSize)
  | .read count =>
    bytes (LazyConstructableStream.onValue streamFactory (SeekableStream.read count))
  | .write bytes =>
    nothing (LazyConstructableStream.onValue streamFactory (SeekableStream.write bytes))
  | .setLength value =>
    nothing (LazyConstructableStream.onValue streamFactory (SeekableStream.setLength value))
  | .flush => nothing LazyConstructableStream.flush

/-- A `Seek` goes to a position that is not negative. -/
def Valid (s : σ) : StreamOp → Prop
  | .seek offset origin => 0 ≤ target offset origin s
  | .setPosition value => 0 ≤ value
  | _ => True

instance (s : σ) : DecidablePred (Valid s)
  | .seek offset origin => inferInstanceAs (Decidable (0 ≤ target offset origin s))
  | .setPosition value => inferInstanceAs (Decidable (0 ≤ value))
  | .getPosition => isTrue trivial
  | .length => isTrue trivial
  | .read _ => isTrue trivial
  | .write _ => isTrue trivial
  | .setLength _ => isTrue trivial
  | .flush => isTrue trivial

/-- A `Seek` from the end, by a distance other than 0, before the creation. -/
def SeeksVirtualEnd (this : LazyConstructableStream σ) : StreamOp → Prop
  | .seek offset .end_ => this.permissiveStream = none ∧ offset ≠ 0
  | _ => False

end StreamOp

/-- One operation, with what the size getter returns at it. -/
structure StreamStep where
  op : StreamOp
  optimizedSize : Option Int

/-- The operations side by side: every result, and at every point the position
and the content, are the same. -/
def Same (streamFactory : σ) : List StreamStep → σ → LazyConstructableStream σ → Prop
  | [], s, this => this.getPosition = position s ∧ this.getContent streamFactory = content s
  | step :: steps, s, this =>
    (this.getPosition = position s ∧ this.getContent streamFactory = content s) ∧
      Prog.Alike (Same streamFactory steps) (step.op.exec s)
        (step.op.execLazy streamFactory step.optimizedSize this)

/-- On the stream of the factory every `Seek` is valid; the size getter returns
null or the length. -/
def ValidOps (streamFactory : σ) : List StreamStep → σ → Prop
  | [], _ => True
  | step :: steps, s =>
    (step.op.Valid s ∧ ∀ size ∈ step.optimizedSize, size = SeekableStream.length streamFactory) ∧
      ∀ r s', step.op.exec s = some (r, s') → ValidOps streamFactory steps s'

/-- No operation on the lazy stream seeks from the end before the creation. -/
def NoVirtualEnd (streamFactory : σ) : List StreamStep → LazyConstructableStream σ → Prop
  | [], _ => True
  | step :: steps, this => ¬ step.op.SeeksVirtualEnd this ∧
      ∀ r this', step.op.execLazy streamFactory step.optimizedSize this = some (r, this') →
        NoVirtualEnd streamFactory steps this'

/-! ### The lazy stream follows a stream -/

/-- The lazy stream stands for a stream: for the one of the factory at the
virtual position, or for the inner one. -/
inductive Follows (streamFactory : σ) : σ → LazyConstructableStream σ → Prop
  | notCreated (v : Int) (hv : 0 ≤ v) :
    Follows streamFactory (moveTo v streamFactory) { stream := .notCreated, virtualPosition := v }
  | created (s : σ) (v : Int) :
    Follows streamFactory s { stream := .created s, virtualPosition := v }

variable {streamFactory s : σ} {this : LazyConstructableStream σ} {optimizedSize : Option Int}

namespace Follows

theorem position_eq (h : Follows streamFactory s this) : this.getPosition = position s := by
  cases h with
  | notCreated v hv => exact (SeekableStream.position_moveTo v streamFactory).symm
  | created s v => rfl

theorem content_eq (h : Follows streamFactory s this) :
    this.getContent streamFactory = content s := by
  cases h with
  | notCreated v hv => exact (SeekableStream.content_moveTo v streamFactory).symm
  | created s v => rfl

theorem create_eq (h : Follows streamFactory s this) :
    LazyConstructableStream.create streamFactory this =
      some (.ok PUnit.unit, { this with stream := .created s }) := by
  cases h with
  | notCreated v hv =>
    unfold LazyConstructableStream.create
    dsimp only
    rw [SeekableStream.setPosition_eq hv]
  | created s v => rfl

theorem onStream {β : Type} (x : Prog σ ε β) (v : Int) : Prog.Mirrors (Follows streamFactory) x
    (LazyConstructableStream.onStream x) s { stream := .created s, virtualPosition := v } := by
  show Prog.Alike _ (x s) (match x s with
    | none => none
    | some (r, s') => some (r, _))
  cases x s with
  | none => trivial
  | some o => exact ⟨rfl, created o.2 v⟩

theorem onValue {β : Type} (h : Follows streamFactory s this) (x : Prog σ ε β) :
    Prog.Mirrors (Follows streamFactory) x (LazyConstructableStream.onValue streamFactory x) s
      this := by
  show Prog.Alike _ (x s) (Prog.andThen (LazyConstructableStream.create streamFactory) _ this)
  unfold Prog.andThen
  rw [h.create_eq]
  exact onStream x this.virtualPosition

theorem length (h : Follows streamFactory s this)
    (hsize : ∀ size ∈ optimizedSize, size = SeekableStream.length streamFactory) :
    Prog.Mirrors (Follows streamFactory) (fun s => some (.ok (SeekableStream.length s), s))
      (LazyConstructableStream.length streamFactory optimizedSize) s this := by
  have hvalue := h.onValue fun s => some (.ok (SeekableStream.length s), s)
  cases h with
  | created s v => exact ⟨rfl, created s v⟩
  | notCreated v hv =>
    cases optimizedSize with
    | none => exact hvalue
    | some size =>
      refine ⟨?_, notCreated v hv⟩
      rw [hsize size rfl, SeekableStream.length_moveTo]

theorem flush (h : Follows streamFactory s this) : Prog.Mirrors (Follows streamFactory)
    SeekableStream.flush LazyConstructableStream.flush s this := by
  cases h with
  | created s v => exact onStream SeekableStream.flush v
  | notCreated v hv =>
    unfold Prog.Mirrors
    rw [SeekableStream.flush_eq]
    exact ⟨rfl, notCreated v hv⟩

theorem setPosition (h : Follows streamFactory s this) {value : Int} (hvalue : 0 ≤ value) :
    Prog.Mirrors (Follows streamFactory) (SeekableStream.setPosition value)
      (LazyConstructableStream.setPosition value) s this := by
  cases h with
  | created s v => exact onStream (SeekableStream.setPosition value) v
  | notCreated v hv =>
    unfold Prog.Mirrors
    rw [SeekableStream.setPosition_eq hvalue, SeekableStream.moveTo_moveTo]
    exact ⟨rfl, notCreated value hvalue⟩

/-! ### `Seek` from the end before the creation -/

/-- With a size getter that answers, the inner stream is not created. -/
theorem virtualEnd_some (size offset v : Int) :
    LazyConstructableStream.seek streamFactory (some size) offset .end_
        { stream := .notCreated, virtualPosition := v } =
      some (.ok (size - offset), { stream := .notCreated, virtualPosition := size - offset }) := rfl

/-- Without one, the inner stream is created and then sent to the virtual position. -/
theorem virtualEnd_none (offset : Int) {v size : Int} (hv : 0 ≤ v)
    (hsize : size = SeekableStream.length streamFactory) :
    LazyConstructableStream.seek streamFactory none offset .end_
        { stream := .notCreated, virtualPosition := v } =
      if size - offset < 0 then some (.error (SeekableStream.outOfRange σ),
        { stream := .created (moveTo v streamFactory), virtualPosition := size - offset })
      else some (.ok (size - offset), { stream := .created (moveTo (size - offset) streamFactory),
                                        virtualPosition := size - offset }) := by
  have hlength : LazyConstructableStream.length streamFactory none
      { stream := .notCreated, virtualPosition := v } =
        some (.ok size, { stream := .created (moveTo v streamFactory), virtualPosition := v }) := by
    show Prog.andThen (LazyConstructableStream.create streamFactory) _ _ = _
    unfold Prog.andThen
    rw [(notCreated v hv).create_eq, hsize, ← SeekableStream.length_moveTo v streamFactory]
    rfl
  show Prog.andThen (LazyConstructableStream.length streamFactory none) _ _ = _
  unfold Prog.andThen
  rw [hlength]
  show Prog.andThen (LazyConstructableStream.onStream (SeekableStream.setPosition (size - offset)))
    _ { stream := .created (moveTo v streamFactory), virtualPosition := size - offset } = _
  unfold Prog.andThen LazyConstructableStream.onStream SeekableStream.setPosition
  by_cases hneg : size - offset < 0
  · simp only [if_pos hneg]
    rfl
  · simp only [if_neg hneg, ← SeekableStream.moveTo_moveTo (size - offset) v streamFactory]
    rfl

/-- A valid `Seek`, from the end only by 0 or after the creation. -/
theorem seek (h : Follows streamFactory s this) {offset : Int} {origin : SeekOrigin}
    (hsize : ∀ size ∈ optimizedSize, size = SeekableStream.length streamFactory)
    (hvalid : 0 ≤ target offset origin s)
    (hend : ¬ (StreamOp.seek offset origin).SeeksVirtualEnd this) :
    Prog.Mirrors (Follows streamFactory) (SeekableStream.seek offset origin)
      (LazyConstructableStream.seek streamFactory optimizedSize offset origin) s this := by
  cases h with
  | created s v => exact onStream (SeekableStream.seek offset origin) v
  | notCreated v hv =>
    unfold Prog.Mirrors
    rw [SeekableStream.seek_eq hvalid, SeekableStream.moveTo_moveTo]
    cases origin with
    | begin_ => exact ⟨rfl, notCreated offset hvalid⟩
    | current =>
      rw [SeekableStream.target_current_moveTo] at hvalid ⊢
      exact ⟨rfl, notCreated (v + offset) hvalid⟩
    | end_ =>
      obtain rfl : offset = 0 := by
        by_contra hoffset
        exact hend ⟨rfl, hoffset⟩
      rw [SeekableStream.target_end_moveTo, Int.add_zero] at hvalid ⊢
      cases optimizedSize with
      | some size =>
        obtain rfl := hsize size rfl
        rw [virtualEnd_some, Int.sub_zero]
        exact ⟨rfl, notCreated _ hvalid⟩
      | none =>
        rw [virtualEnd_none 0 hv rfl, Int.sub_zero, if_neg (Int.not_lt.mpr hvalid)]
        exact ⟨rfl, created _ _⟩

/-- Any other valid `Seek` from the end returns another position. -/
theorem not_mirrors_virtualEnd {offset : Int} {R : σ → LazyConstructableStream σ → Prop}
    (h : Follows streamFactory s this)
    (hsize : ∀ size ∈ optimizedSize, size = SeekableStream.length streamFactory)
    (hvalid : 0 ≤ target offset .end_ s) (hnot : this.permissiveStream = none)
    (hoffset : offset ≠ 0) : ¬ Prog.Mirrors R (SeekableStream.seek offset .end_)
      (LazyConstructableStream.seek streamFactory optimizedSize offset .end_) s this := by
  cases h with
  | created s v => cases hnot
  | notCreated v hv =>
    have hne : SeekableStream.length streamFactory - offset ≠
        SeekableStream.length streamFactory + offset := by omega
    unfold Prog.Mirrors
    rw [SeekableStream.seek_eq hvalid, SeekableStream.target_end_moveTo]
    intro halike
    cases optimizedSize with
    | some size =>
      obtain rfl := hsize size rfl
      rw [virtualEnd_some] at halike
      exact hne (Except.ok.inj halike.1)
    | none =>
      rw [virtualEnd_none offset hv rfl] at halike
      split at halike
      · cases halike.1
      · exact hne (Except.ok.inj halike.1)

end Follows

/-! ### Sequences of operations -/

/-- **One operation.**  The lazy stream does what the stream does. -/
theorem StreamOp.mirrors (op : StreamOp) (h : Follows streamFactory s this)
    (hsize : ∀ size ∈ optimizedSize, size = SeekableStream.length streamFactory)
    (hvalid : op.Valid s) (hend : ¬ op.SeeksVirtualEnd this) :
    Prog.Mirrors (Follows streamFactory) op.exec (op.execLazy streamFactory optimizedSize) s
      this := by
  cases op with
  | seek offset origin => exact (h.seek hsize hvalid hend).map Output.number
  | getPosition => exact ⟨congrArg (fun n => Except.ok (Output.number n)) h.position_eq, h⟩
  | setPosition value => exact (h.setPosition hvalid).map fun _ => Output.nothing
  | length => exact (h.length hsize).map Output.number
  | read count => exact (h.onValue (SeekableStream.read count)).map Output.bytes
  | write bytes => exact (h.onValue (SeekableStream.write bytes)).map fun _ => Output.nothing
  | setLength value =>
    exact (h.onValue (SeekableStream.setLength value)).map fun _ => Output.nothing
  | flush => exact h.flush.map fun _ => Output.nothing

/-- The operation that goes wrong. -/
theorem StreamOp.not_mirrors (op : StreamOp) {R : σ → LazyConstructableStream σ → Prop}
    (h : Follows streamFactory s this)
    (hsize : ∀ size ∈ optimizedSize, size = SeekableStream.length streamFactory)
    (hvalid : op.Valid s) (hend : op.SeeksVirtualEnd this) :
    ¬ Prog.Mirrors R op.exec (op.execLazy streamFactory optimizedSize) s this := by
  cases op with
  | seek offset origin =>
    cases origin with
    | end_ =>
      intro hm
      exact h.not_mirrors_virtualEnd hsize hvalid hend.1 hend.2
        (hm.of_map fun _ _ hb => Output.number.inj hb)
    | _ => exact hend.elim
  | _ => exact hend.elim

/-- A lazy stream that follows a stream stays the same until an operation goes
wrong. -/
theorem follows_same_iff (steps : List StreamStep) :
    ∀ {s : σ} {this : LazyConstructableStream σ}, Follows streamFactory s this →
      ValidOps streamFactory steps s →
      (Same streamFactory steps s this ↔ NoVirtualEnd streamFactory steps this) := by
  induction steps with
  | nil =>
    intro s this h _
    exact ⟨fun _ => trivial, fun _ => ⟨h.position_eq, h.content_eq⟩⟩
  | cons step steps ih =>
    intro s this h ⟨⟨hvalid, hsize⟩, hrest⟩
    by_cases hend : step.op.SeeksVirtualEnd this
    · exact ⟨fun hs => absurd hs.2 (step.op.not_mirrors h hsize hvalid hend),
        fun hn => absurd hend hn.1⟩
    · have hm := step.op.mirrors h hsize hvalid hend
      rw [Same, NoVirtualEnd]
      rcases Prog.alike_iff.mp hm with ⟨hx, hy⟩ | ⟨r, s', this', hx, hy, h'⟩
      · rw [hx, hy]
        exact ⟨fun _ => ⟨hend, nofun⟩, fun _ => ⟨⟨h.position_eq, h.content_eq⟩, trivial⟩⟩
      · have hrec := ih h' (hrest r s' hx)
        rw [hx, hy]
        constructor
        · intro ⟨_, _, hsame⟩
          refine ⟨hend, fun r'' this'' heq => ?_⟩
          obtain ⟨rfl, rfl⟩ := Prod.mk.inj (Option.some.inj heq)
          exact hrec.mp hsame
        · intro ⟨_, hno⟩
          exact ⟨⟨h.position_eq, h.content_eq⟩, rfl, hrec.mpr (hno r this' rfl)⟩

/-- **Same as a stream.**  The operations on the lazy stream return what they
return on the stream of the factory and lead to the same positions and contents,
exactly if that stream stands at 0 and no operation seeks from the end, by a
distance other than 0, before the inner stream is created. -/
theorem same_iff (streamFactory : σ) (steps : List StreamStep)
    (hvalid : ValidOps streamFactory steps streamFactory) :
    Same streamFactory steps streamFactory .new ↔
      position streamFactory = 0 ∧ NoVirtualEnd streamFactory steps .new := by
  have hstart : Same streamFactory steps streamFactory .new → position streamFactory = 0 := by
    intro hsame
    cases steps with
    | nil => exact hsame.1.symm
    | cons step steps => exact hsame.1.1.symm
  have hfollows : position streamFactory = 0 → Follows streamFactory streamFactory .new := by
    intro hzero
    have h : Follows streamFactory _ _ := .notCreated 0 (Int.le_refl 0)
    rwa [← hzero, SeekableStream.moveTo_position, hzero] at h
  constructor
  · intro hsame
    exact ⟨hstart hsame, (follows_same_iff steps (hfollows (hstart hsame)) hvalid).mp hsame⟩
  · intro ⟨hzero, hno⟩
    exact (follows_same_iff steps (hfollows hzero) hvalid).mpr hno

/-- A `Read` at a virtual position creates the inner stream, and a `Seek` from the end
behind it is the one of a stream; before it, it is not. -/
theorem same_iff_read_then_seek :
    Same (⟨[1, 2, 3], 0⟩ : ByteStream) [⟨.seek 1 .begin_, some 3⟩, ⟨.read 1, none⟩,
        ⟨.seek (-1) .end_, none⟩, ⟨.getPosition, none⟩] ⟨[1, 2, 3], 0⟩ .new ∧
      ¬ Same (⟨[1, 2, 3], 0⟩ : ByteStream) [⟨.seek (-1) .end_, some 3⟩] ⟨[1, 2, 3], 0⟩ .new := by
  constructor
  · refine (same_iff _ _ ?_).mpr ⟨rfl, ?_⟩
    · refine ⟨⟨by decide, by decide⟩, fun r s h => ?_⟩
      cases h
      refine ⟨⟨trivial, by decide⟩, fun r s h => ?_⟩
      cases h
      refine ⟨⟨by decide, by decide⟩, fun r s h => ?_⟩
      cases h
      exact ⟨⟨trivial, by decide⟩, fun _ _ _ => trivial⟩
    · refine ⟨id, fun r this h => ?_⟩
      cases h
      refine ⟨id, fun r this h => ?_⟩
      cases h
      refine ⟨fun hend => Option.some_ne_none _ hend.1, fun r this h => ?_⟩
      cases h
      exact ⟨id, fun _ _ _ => trivial⟩
  · intro hsame
    have hvalid : ValidOps (⟨[1, 2, 3], 0⟩ : ByteStream) [⟨.seek (-1) .end_, some 3⟩]
        ⟨[1, 2, 3], 0⟩ := ⟨⟨by decide, by decide⟩, fun _ _ _ => trivial⟩
    have hno := ((same_iff _ _ hvalid).mp hsame).2
    exact hno.1 ⟨rfl, by decide⟩

/-- `Seek(-1, End)` on a stream of three bytes returns 4, and 2 on the stream
itself. -/
theorem not_same_last_byte : ∃ steps : List StreamStep,
    ValidOps (⟨[1, 2, 3], 0⟩ : ByteStream) steps ⟨[1, 2, 3], 0⟩ ∧
    ¬ Same (⟨[1, 2, 3], 0⟩ : ByteStream) steps ⟨[1, 2, 3], 0⟩ .new := by
  refine ⟨[⟨.seek (-1) .end_, some 3⟩], ⟨⟨by decide, by decide⟩, fun _ _ _ => trivial⟩, ?_⟩
  intro hsame
  have hresult : (4 : Int) = 2 := Output.number.inj (Except.ok.inj hsame.2.1)
  exact absurd hresult (by decide)

end Garbage.ContentManager
