import Garbage.Foundation.Machine
import Garbage.Foundation.SeekableStream

/-!
# Disposing of the stream that is created when it is needed

The same class as in `LazyConstructableStream`, with an inner stream any member of
which may throw, a factory that may throw, and the life of the inner stream: how many
the factory has returned, and how many times `Dispose` was called on one.

A position is a `long` and wraps around.

`Dispose` clears `_stream`, which is what answers whether the inner stream exists, and
asks it first: a second `Dispose` asks null.  The lambda of the constructor sets the
position of the stream that the factory has returned; if that throws, the `Lazy` keeps
the exception and nobody the stream.

So **the inner stream is disposed of once, and no `Dispose` throws, exactly if there is
one `Dispose` and the inner stream has not refused its first position**
(`disposal_exact_iff`).
-/

namespace Garbage.ContentManager.Disposal

open Foundation (Prog Machine SeekOrigin)
open Foundation.Prog

variable {σ ε β : Type}

/-- The members of the inner stream. -/
structure InnerStream (σ ε : Type) where
  flush : σ → Except ε PUnit × σ
  seek : Int64 → SeekOrigin → σ → Except ε Int64 × σ
  setLength : Int64 → σ → Except ε PUnit × σ
  read : Nat → σ → Except ε (List UInt8) × σ
  write : List UInt8 → σ → Except ε PUnit × σ
  canRead : σ → Except ε Bool × σ
  canSeek : σ → Except ε Bool × σ
  canWrite : σ → Except ε Bool × σ
  canTimeout : σ → Except ε Bool × σ
  length : σ → Except ε Int64 × σ
  getPosition : σ → Except ε Int64 × σ
  setPosition : Int64 → σ → Except ε PUnit × σ
  getReadTimeout : σ → Except ε Int32 × σ
  setReadTimeout : Int32 → σ → Except ε PUnit × σ
  getWriteTimeout : σ → Except ε Int32 × σ
  setWriteTimeout : Int32 → σ → Except ε PUnit × σ
  dispose : σ → Except ε PUnit × σ

/-- `Lazy<Stream>` with `LazyThreadSafetyMode.None`. -/
inductive Lazy (σ ε : Type)
  | notCreated
  | created (stream : σ)
  | faulted (ex : ε)

/-- The fields, and what became of the streams of the factory. -/
structure Life (σ ε : Type) where
  /-- `_stream`, which `Dispose` sets to null -/
  stream : Option (Lazy σ ε)
  virtualPosition : Int64
  made : Nat
  disposed : Nat

inductive Failure (ε : Type)
  /-- `NullReferenceException` -/
  | nullReference
  /-- an exception of the inner stream, of the factory or of the size getter -/
  | own (ex : ε)
  deriving DecidableEq

abbrev Member (σ ε β : Type) := Prog (Life σ ε) (Failure ε) β

def new : Life σ ε := { stream := some .notCreated, virtualPosition := 0, made := 0, disposed := 0 }

/-! ### The members -/

def permissiveStream : Member σ ε (Option σ) := fun this =>
  match this.stream with
  | none => some (.error .nullReference, this)
  | some (.created s) => some (.ok (some s), this)
  | some _ => some (.ok none, this)

def setVirtualPosition (value : Int64) : Member σ ε PUnit :=
  Prog.modify fun this => { this with virtualPosition := value }

def getVirtualPosition : Member σ ε Int64 := fun this => some (.ok this.virtualPosition, this)

/-- A member of the inner stream, where it exists. -/
def onStream (x : σ → Except ε β × σ) : Member σ ε β := fun this =>
  match this.stream with
  | some (.created s) =>
    some ((x s).1.mapError .own, { this with stream := some (.created (x s).2) })
  | _ => some (.error .nullReference, this)

section Members

-- what the factory does when it is called
variable (factory : Except ε σ) (inner : InnerStream σ ε)

/-- `_stream.Value` -/
def value : Member σ ε PUnit := fun this =>
  match this.stream with
  | none => some (.error .nullReference, this)
  | some (.created _) => some (.ok PUnit.unit, this)
  | some (.faulted ex) => some (.error (.own ex), this)
  | some .notCreated =>
    match factory with
    | .error ex => some (.error (.own ex), { this with stream := some (.faulted ex) })
    | .ok stream =>
      let this := { this with made := this.made + 1 }
      match inner.setPosition this.virtualPosition stream with
      | (.ok _, stream) => some (.ok PUnit.unit, { this with stream := some (.created stream) })
      | (.error ex, _) => some (.error (.own ex), { this with stream := some (.faulted ex) })

def onValue (x : σ → Except ε β × σ) : Member σ ε β := do
  value factory inner
  onStream x

def flush : Member σ ε PUnit := do
  match ← permissiveStream with
  | none => pure PUnit.unit
  | some _ => onStream inner.flush

/-- `Length`; `optimizedSize` is what the size getter does now, `.ok none` where there
is no getter. -/
def length (optimizedSize : Except ε (Option Int64)) : Member σ ε Int64 := do
  match ← permissiveStream with
  | some _ => onStream inner.length
  | none =>
    match optimizedSize with
    | .error ex => Prog.raise (.own ex)
    | .ok (some size) => pure size
    | .ok none => onValue factory inner inner.length

/-- The `switch` of `VirtualSeek`. -/
def moveVirtual (optimizedSize : Except ε (Option Int64)) (offset : Int64) :
    SeekOrigin → Member σ ε PUnit
  | .begin_ => setVirtualPosition offset
  | .current => do
    let position ← getVirtualPosition
    setVirtualPosition (position + offset)
  | .end_ => do
    let size ← length factory inner optimizedSize
    setVirtualPosition (size - offset)

/-- `if (PermissiveStream != null) _stream.Value.Position = _virtualPosition;` -/
def moveStream : Member σ ε PUnit := do
  let position ← getVirtualPosition
  match ← permissiveStream with
  | none => pure PUnit.unit
  | some _ => onStream (inner.setPosition position)

def virtualSeek (optimizedSize : Except ε (Option Int64)) (offset : Int64) (origin : SeekOrigin) :
    Member σ ε Int64 := do
  moveVirtual factory inner optimizedSize offset origin
  moveStream inner
  getVirtualPosition

def seek (optimizedSize : Except ε (Option Int64)) (offset : Int64) (origin : SeekOrigin) :
    Member σ ε Int64 := do
  match ← permissiveStream with
  | none => virtualSeek factory inner optimizedSize offset origin
  | some _ => onStream (inner.seek offset origin)

def getPosition : Member σ ε Int64 := do
  match ← permissiveStream with
  | none => getVirtualPosition
  | some _ => onStream inner.getPosition

def setPosition (value : Int64) : Member σ ε PUnit := do
  match ← permissiveStream with
  | none => setVirtualPosition value
  | some _ => onStream (inner.setPosition value)

/-- `stream.Dispose()` -/
def disposeInner (s : σ) : Member σ ε PUnit := fun this =>
  some ((inner.dispose s).1.mapError .own, { this with disposed := this.disposed + 1 })

/-- `Dispose(bool disposing)`, which `Dispose`, `Close` and a `using` block call. -/
def dispose : Member σ ε PUnit := do
  let stream ← permissiveStream
  Prog.modify fun this => { this with stream := none }
  match stream with
  | none => pure PUnit.unit
  | some s => disposeInner inner s

end Members

/-! ### The calls -/

inductive Call (ε : Type)
  | flush
  | seek (optimizedSize : Except ε (Option Int64)) (offset : Int64) (origin : SeekOrigin)
  | setLength (value : Int64)
  | read (count : Nat)
  | write (bytes : List UInt8)
  | canRead
  | canSeek
  | canWrite
  | canTimeout
  | length (optimizedSize : Except ε (Option Int64))
  | getPosition
  | setPosition (value : Int64)
  | getReadTimeout
  | setReadTimeout (value : Int32)
  | getWriteTimeout
  | setWriteTimeout (value : Int32)

def discard (x : Member σ ε β) : Member σ ε PUnit := do
  let _ ← x
  pure PUnit.unit

section Calls

variable (factory : Except ε σ) (inner : InnerStream σ ε)

def exec : Call ε → Member σ ε PUnit
  | .flush => flush inner
  | .seek optimizedSize offset origin => discard (seek factory inner optimizedSize offset origin)
  | .setLength value => onValue factory inner (inner.setLength value)
  | .read count => discard (onValue factory inner (inner.read count))
  | .write bytes => onValue factory inner (inner.write bytes)
  | .canRead => discard (onValue factory inner inner.canRead)
  | .canSeek => discard (onValue factory inner inner.canSeek)
  | .canWrite => discard (onValue factory inner inner.canWrite)
  | .canTimeout => discard (onValue factory inner inner.canTimeout)
  | .length optimizedSize => discard (length factory inner optimizedSize)
  | .getPosition => discard (getPosition inner)
  | .setPosition value => setPosition inner value
  | .getReadTimeout => discard (onValue factory inner inner.getReadTimeout)
  | .setReadTimeout value => onValue factory inner (inner.setReadTimeout value)
  | .getWriteTimeout => discard (onValue factory inner inner.getWriteTimeout)
  | .setWriteTimeout value => onValue factory inner (inner.setWriteTimeout value)

/-- The machine of the calls before the `Dispose`s; the caller goes on after an
exception. -/
def machine : Machine (Life σ ε) (Call ε) where
  init this := this = new
  next this call := (exec factory inner call this).map Prod.snd

/-- Some `Dispose` calls, with what each of them threw. -/
def disposes : Nat → Life σ ε → Option (List (Except (Failure ε) PUnit) × Life σ ε)
  | 0, this => some ([], this)
  | n + 1, this => do
    let (r, this) ← dispose inner this
    let (rs, this) ← disposes n this
    return (r :: rs, this)

end Calls

/-! ### What a call does to the inner stream -/

inductive Phase
  | waiting
  | created
  | faulted
  deriving DecidableEq

def Lazy.phase : Lazy σ ε → Phase
  | notCreated => .waiting
  | created _ => .created
  | faulted _ => .faulted

/-- The phase of the inner stream, how many have been made, and none was disposed of. -/
structure At (phase : Phase) (made : Nat) (this : Life σ ε) : Prop where
  phase : this.stream.map Lazy.phase = some phase
  made : this.made = made
  disposed : this.disposed = 0

/-- However a member ends it leaves what it found. -/
def Keeps (P : Life σ ε → Prop) (x : Member σ ε β) : Prop :=
  ∀ this, P this → wp x (fun _ => P) (fun _ => P) this

theorem Keeps.bind {γ : Type} {P : Life σ ε → Prop} {x : Member σ ε β} {f : β → Member σ ε γ}
    (hx : Keeps P x) (hf : ∀ b, Keeps P (f b)) : Keeps P (x >>= f) := by
  intro this h
  rw [wp_bind]
  exact (hx this h).imp fun b this' h' => hf b this' h'

theorem Keeps.discard {P : Life σ ε → Prop} {x : Member σ ε β} (h : Keeps P x) :
    Keeps P (discard x) :=
  h.bind fun _ _ h' => h'

theorem keeps_pure (P : Life σ ε → Prop) (b : β) : Keeps P (pure b) := fun _ h => h

theorem keeps_raise (P : Life σ ε → Prop) (ex : Failure ε) :
    Keeps P (Prog.raise ex : Member σ ε β) := fun _ h => h

theorem At.cases {phase : Phase} {m : Nat} {this : Life σ ε} (h : At phase m this) :
    (phase = .waiting ∧ this.stream = some .notCreated) ∨
      (phase = .created ∧ ∃ s, this.stream = some (.created s)) ∨
      (phase = .faulted ∧ ∃ ex, this.stream = some (.faulted ex)) := by
  obtain ⟨l, hl, hp⟩ := Option.map_eq_some_iff.mp h.phase
  cases l with
  | notCreated => exact .inl ⟨hp.symm, hl⟩
  | created s => exact .inr (.inl ⟨hp.symm, s, hl⟩)
  | faulted ex => exact .inr (.inr ⟨hp.symm, ex, hl⟩)

section Keeping

variable {factory : Except ε σ} {inner : InnerStream σ ε} {phase : Phase} {m : Nat}

theorem keeps_permissiveStream :
    Keeps (At phase m) (permissiveStream : Member σ ε (Option σ)) := by
  intro this h
  rcases h.cases with ⟨rfl, hs⟩ | ⟨rfl, s, hs⟩ | ⟨rfl, ex, hs⟩ <;>
    simpa [wp, permissiveStream, hs] using h

theorem keeps_setVirtualPosition (v : Int64) :
    Keeps (At phase m) (setVirtualPosition v : Member σ ε PUnit) :=
  fun _ h => ⟨h.phase, h.made, h.disposed⟩

theorem keeps_getVirtualPosition :
    Keeps (At phase m) (getVirtualPosition : Member σ ε Int64) := fun _ h => h

theorem keeps_onStream (x : σ → Except ε β × σ) :
    Keeps (At phase m) (onStream x : Member σ ε β) := by
  intro this h
  rcases h.cases with ⟨rfl, hs⟩ | ⟨rfl, s, hs⟩ | ⟨rfl, ex, hs⟩
  · simpa [wp, onStream, hs] using h
  · have h' : At .created m ({ this with stream := some (.created (x s).2) } : Life σ ε) :=
      ⟨rfl, h.made, h.disposed⟩
    rcases hr : (x s).1 with ex | b <;> simpa [wp, onStream, hs, hr, Except.mapError] using h'
  · simpa [wp, onStream, hs] using h

theorem keeps_moveStream : Keeps (At phase m) (moveStream inner) := by
  refine keeps_getVirtualPosition.bind fun position => keeps_permissiveStream.bind fun stream => ?_
  cases stream with
  | none => exact keeps_pure _ _
  | some s => exact keeps_onStream _

theorem keeps_value (hphase : phase ≠ .waiting) : Keeps (At phase m) (value factory inner) := by
  intro this h
  rcases h.cases with ⟨rfl, hs⟩ | ⟨rfl, s, hs⟩ | ⟨rfl, ex, hs⟩
  · exact absurd rfl hphase
  · simpa [wp, value, hs] using h
  · simpa [wp, value, hs] using h

/-- The members that never create the inner stream. -/
theorem keeps_flush : Keeps (At phase m) (flush inner) := by
  refine keeps_permissiveStream.bind fun stream => ?_
  cases stream with
  | none => exact keeps_pure _ _
  | some s => exact keeps_onStream _

theorem keeps_getPosition : Keeps (At phase m) (getPosition inner) := by
  refine keeps_permissiveStream.bind fun stream => ?_
  cases stream with
  | none => exact keeps_getVirtualPosition
  | some s => exact keeps_onStream _

theorem keeps_setPosition (v : Int64) : Keeps (At phase m) (setPosition inner v) := by
  refine keeps_permissiveStream.bind fun stream => ?_
  cases stream with
  | none => exact keeps_setVirtualPosition v
  | some s => exact keeps_onStream _

/-- `Length` and `Seek` keep what `_stream.Value` keeps, or need it not. -/
theorem keeps_length {optimizedSize : Except ε (Option Int64)}
    (hvalue : optimizedSize = .ok none → Keeps (At phase m) (value factory inner)) :
    Keeps (At phase m) (length factory inner optimizedSize) := by
  refine keeps_permissiveStream.bind fun stream => ?_
  cases stream with
  | some s => exact keeps_onStream _
  | none =>
    match optimizedSize with
    | .error ex => exact keeps_raise _ _
    | .ok (some size) => exact keeps_pure _ _
    | .ok none => exact (hvalue rfl).bind fun _ => keeps_onStream _

theorem keeps_seek {optimizedSize : Except ε (Option Int64)} {offset : Int64} {origin : SeekOrigin}
    (hvalue : origin = .end_ → optimizedSize = .ok none →
      Keeps (At phase m) (value factory inner)) :
    Keeps (At phase m) (seek factory inner optimizedSize offset origin) := by
  refine keeps_permissiveStream.bind fun stream => ?_
  cases stream with
  | some s => exact keeps_onStream _
  | none =>
    refine Keeps.bind ?_ fun _ => keeps_moveStream.bind fun _ => keeps_getVirtualPosition
    cases origin with
    | begin_ => exact keeps_setVirtualPosition _
    | current => exact keeps_getVirtualPosition.bind fun _ => keeps_setVirtualPosition _
    | end_ => exact (keeps_length (hvalue rfl)).bind fun _ => keeps_setVirtualPosition _

theorem keeps_onValue (hvalue : Keeps (At phase m) (value factory inner))
    (x : σ → Except ε β × σ) : Keeps (At phase m) (onValue factory inner x) :=
  hvalue.bind fun _ => keeps_onStream x

end Keeping

/-! ### The calls -/

/-- The call needs the inner stream, where it does not exist. -/
def Call.needsValue : Call ε → Bool
  | .flush | .getPosition | .setPosition _ => false
  | .length (.ok none) => true
  | .length _ => false
  | .seek (.ok none) _ .end_ => true
  | .seek _ _ _ => false
  | _ => true

section Calls

variable {factory : Except ε σ} {inner : InnerStream σ ε} {phase : Phase} {m : Nat}

/-- A call keeps what `_stream.Value` keeps, or needs it not. -/
theorem keeps_exec (call : Call ε)
    (hvalue : call.needsValue = true → Keeps (At phase m) (value factory inner)) :
    Keeps (At phase m) (exec factory inner call) := by
  cases call with
  | flush => exact keeps_flush
  | seek optimizedSize offset origin =>
    refine (keeps_seek ?_).discard
    rintro rfl rfl
    exact hvalue rfl
  | length optimizedSize =>
    refine (keeps_length ?_).discard
    rintro rfl
    exact hvalue rfl
  | getPosition => exact keeps_getPosition.discard
  | setPosition v => exact keeps_setPosition v
  | setLength v => exact keeps_onValue (hvalue rfl) _
  | write bytes => exact keeps_onValue (hvalue rfl) _
  | setReadTimeout v => exact keeps_onValue (hvalue rfl) _
  | setWriteTimeout v => exact keeps_onValue (hvalue rfl) _
  | read count => exact (keeps_onValue (hvalue rfl) _).discard
  | canRead => exact (keeps_onValue (hvalue rfl) _).discard
  | canSeek => exact (keeps_onValue (hvalue rfl) _).discard
  | canWrite => exact (keeps_onValue (hvalue rfl) _).discard
  | canTimeout => exact (keeps_onValue (hvalue rfl) _).discard
  | getReadTimeout => exact (keeps_onValue (hvalue rfl) _).discard
  | getWriteTimeout => exact (keeps_onValue (hvalue rfl) _).discard

/-- What becomes of the inner stream when it is created at a position. -/
def creation (factory : Except ε σ) (inner : InnerStream σ ε) (position : Int64) : Phase × Nat :=
  match factory with
  | .error _ => (.faulted, 0)
  | .ok s =>
    match (inner.setPosition position s).1 with
    | .ok _ => (.created, 1)
    | .error _ => (.faulted, 1)

/-- However a member ends, it leaves the inner stream as its creation does. -/
def Creates (factory : Except ε σ) (inner : InnerStream σ ε) (x : Member σ ε β)
    (this : Life σ ε) : Prop :=
  let c := creation factory inner this.virtualPosition
  wp x (fun _ => At c.1 c.2) (fun _ => At c.1 c.2) this

theorem Creates.bind {γ : Type} {x : Member σ ε β} {f : β → Member σ ε γ} {this : Life σ ε}
    (h : Creates factory inner x this) (hf : ∀ phase m b, Keeps (At phase m) (f b)) :
    Creates factory inner (x >>= f) this := by
  unfold Creates
  rw [wp_bind]
  exact wp.imp h fun b this' h' => hf _ _ b this' h'

section Creation

variable {this : Life σ ε} (h : At .waiting 0 this)
include h

theorem creates_value : Creates factory inner (value factory inner) this := by
  have hmade := h.made
  have hdisposed := h.disposed
  rcases h.cases with ⟨-, hs⟩ | ⟨⟨⟩, -⟩ | ⟨⟨⟩, -⟩
  unfold Creates creation
  cases factory with
  | error ex =>
    simp only [wp, value, hs]
    exact ⟨rfl, hmade, hdisposed⟩
  | ok s =>
    rcases hr : inner.setPosition this.virtualPosition s with ⟨ex | b, s'⟩ <;>
      simp only [wp, value, hs, hr] <;>
      exact ⟨rfl, congrArg (· + 1) hmade, hdisposed⟩

theorem wp_permissiveStream_waiting {Q : Option σ → Life σ ε → Prop}
    {E : Failure ε → Life σ ε → Prop} : wp permissiveStream Q E this ↔ Q none this := by
  rcases h.cases with ⟨-, hs⟩ | ⟨⟨⟩, -⟩ | ⟨⟨⟩, -⟩
  simp [wp, permissiveStream, hs]

theorem creates_onValue (x : σ → Except ε β × σ) :
    Creates factory inner (onValue factory inner x) this :=
  (creates_value h).bind fun _ _ _ => keeps_onStream x

theorem creates_length : Creates factory inner (length factory inner (.ok none)) this := by
  unfold Creates length
  rw [wp_bind, wp_permissiveStream_waiting h]
  exact creates_onValue h inner.length

theorem creates_seek (offset : Int64) :
    Creates factory inner (seek factory inner (.ok none) offset .end_) this := by
  have hmove : Creates factory inner (moveVirtual factory inner (.ok none) offset .end_) this :=
    (creates_length h).bind fun _ _ _ => keeps_setVirtualPosition _
  unfold Creates seek
  rw [wp_bind, wp_permissiveStream_waiting h]
  exact hmove.bind fun _ _ _ => keeps_moveStream.bind fun _ => keeps_getVirtualPosition

/-- A call that needs the inner stream creates it. -/
theorem creates_exec {call : Call ε} (hneeds : call.needsValue = true) :
    Creates factory inner (exec factory inner call) this := by
  cases call with
  | flush | getPosition | setPosition v => cases hneeds
  | length optimizedSize =>
    match optimizedSize, hneeds with
    | .ok none, _ => exact (creates_length h).bind fun _ _ _ => keeps_pure _ _
  | seek optimizedSize offset origin =>
    match optimizedSize, origin, hneeds with
    | .ok none, .end_, _ => exact (creates_seek h offset).bind fun _ _ _ => keeps_pure _ _
  | setLength v => exact creates_onValue h _
  | write bytes => exact creates_onValue h _
  | setReadTimeout v => exact creates_onValue h _
  | setWriteTimeout v => exact creates_onValue h _
  | read count => exact (creates_onValue h _).bind fun _ _ _ => keeps_pure _ _
  | canRead => exact (creates_onValue h _).bind fun _ _ _ => keeps_pure _ _
  | canSeek => exact (creates_onValue h _).bind fun _ _ _ => keeps_pure _ _
  | canWrite => exact (creates_onValue h _).bind fun _ _ _ => keeps_pure _ _
  | canTimeout => exact (creates_onValue h _).bind fun _ _ _ => keeps_pure _ _
  | getReadTimeout => exact (creates_onValue h _).bind fun _ _ _ => keeps_pure _ _
  | getWriteTimeout => exact (creates_onValue h _).bind fun _ _ _ => keeps_pure _ _

end Creation

end Calls

/-! ### The runs -/

section Runs

variable (factory : Except ε σ) (inner : InnerStream σ ε)

/-- The call creates the inner stream, and that refuses the virtual position. -/
def Refused (this : Life σ ε) (call : Call ε) : Prop :=
  this.stream.map Lazy.phase = some .waiting ∧ call.needsValue = true ∧
    ∃ s ex, factory = .ok s ∧ (inner.setPosition this.virtualPosition s).1 = .error ex

/-- The inner stream is there if one has been made. -/
def Kept (this : Life σ ε) : Prop := At .waiting 0 this ∨ At .created 1 this ∨ At .faulted 0 this

/-- An inner stream has been made and is kept nowhere. -/
def Lost (this : Life σ ε) : Prop := At .faulted 1 this

theorem refused_creation {position : Int64} : creation factory inner position = (.faulted, 1) ↔
    ∃ s ex, factory = .ok s ∧ (inner.setPosition position s).1 = .error ex := by
  unfold creation
  cases factory with
  | error ex => simp
  | ok s => cases hr : (inner.setPosition position s).1 <;> simp [hr]

theorem creation_cases (position : Int64) : creation factory inner position = (.created, 1) ∨
    creation factory inner position = (.faulted, 0) ∨
      creation factory inner position = (.faulted, 1) := by
  unfold creation
  cases factory with
  | error ex => simp
  | ok s => cases hr : (inner.setPosition position s).1 <;> simp [hr]

/-- A call in a phase that it leaves. -/
theorem next_of_keeps {phase : Phase} {m : Nat} {this : Life σ ε} {call : Call ε}
    (h : At phase m this) (hvalue : call.needsValue = true → phase ≠ .waiting) :
    ¬ Refused factory inner this call ∧
      ∃ this', (machine factory inner).next this call = some this' ∧ At phase m this' := by
  have hkeeps : Keeps (At phase m) (exec factory inner call) :=
    keeps_exec call fun hneeds => keeps_value (hvalue hneeds)
  obtain ⟨r, this', hr, -⟩ := (hkeeps this h).outcome
  refine ⟨?_, this', by simp [machine, hr], wp.of_outcome (hkeeps this h) hr⟩
  intro hrefused
  exact hvalue hrefused.2.1 (Option.some.inj (h.phase.symm.trans hrefused.1))

theorem next_of_creates {this : Life σ ε} {call : Call ε} (h : At .waiting 0 this)
    (hneeds : call.needsValue = true) :
    (Refused factory inner this call ↔
        creation factory inner this.virtualPosition = (.faulted, 1)) ∧
      ∃ this', (machine factory inner).next this call = some this' ∧
        At (creation factory inner this.virtualPosition).1
          (creation factory inner this.virtualPosition).2 this' := by
  have hcreates : Creates factory inner (exec factory inner call) this := creates_exec h hneeds
  obtain ⟨r, this', hr, -⟩ := wp.outcome hcreates
  refine ⟨?_, this', by simp [machine, hr], wp.of_outcome hcreates hr⟩
  rw [refused_creation]
  exact ⟨fun hrefused => hrefused.2.2, fun hposition => ⟨h.phase, hneeds, hposition⟩⟩

/-- **One call.**  The inner stream is lost exactly if it refuses its position. -/
theorem next_kept {this : Life σ ε} (call : Call ε) (h : Kept this) :
    ∃ this', (machine factory inner).next this call = some this' ∧
      (¬ Refused factory inner this call → Kept this') ∧
      (Refused factory inner this call → Lost this') := by
  rcases h with hat | hat | hat
  · by_cases hneeds : call.needsValue = true
    · obtain ⟨hrefused, this', hnext, h'⟩ := next_of_creates factory inner hat hneeds
      refine ⟨this', hnext, fun hn => ?_, fun hr => by rwa [hrefused.mp hr] at h'⟩
      rcases creation_cases factory inner this.virtualPosition with hc | hc | hc
      · exact .inr (.inl (by rwa [hc] at h'))
      · exact .inr (.inr (by rwa [hc] at h'))
      · exact absurd (hrefused.mpr hc) hn
    · obtain ⟨hnot, this', hnext, h'⟩ := next_of_keeps factory inner hat
        fun hneeds' => absurd hneeds' hneeds
      exact ⟨this', hnext, fun _ => .inl h', fun hr => absurd hr hnot⟩
  · obtain ⟨hnot, this', hnext, h'⟩ := next_of_keeps factory inner hat fun _ => nofun
    exact ⟨this', hnext, fun _ => .inr (.inl h'), fun hr => absurd hr hnot⟩
  · obtain ⟨hnot, this', hnext, h'⟩ := next_of_keeps factory inner hat fun _ => nofun
    exact ⟨this', hnext, fun _ => .inr (.inr h'), fun hr => absurd hr hnot⟩

theorem next_lost {this : Life σ ε} (call : Call ε) (h : Lost this) :
    ∃ this', (machine factory inner).next this call = some this' ∧ Lost this' :=
  (next_of_keeps factory inner h fun _ => nofun).2

theorem run_lost (calls : List (Call ε)) {this : Life σ ε} (h : Lost this) :
    ∃ this', (machine factory inner).run this calls = some this' ∧ Lost this' := by
  induction calls generalizing this with
  | nil => exact ⟨this, rfl, h⟩
  | cons call calls ih =>
    obtain ⟨this₁, hnext, h₁⟩ := next_lost factory inner call h
    obtain ⟨this', hrun, h'⟩ := ih h₁
    exact ⟨this', by rw [Machine.run_cons, hnext]; exact hrun, h'⟩

/-- **All calls.**  The inner stream is kept exactly if it never refused its position. -/
theorem run_kept (calls : List (Call ε)) {this : Life σ ε} (h : Kept this) :
    ∃ this', (machine factory inner).run this calls = some this' ∧
      ((machine factory inner).AllSteps (fun t c => ¬ Refused factory inner t c) this calls ∧
          Kept this' ∨
        ¬ (machine factory inner).AllSteps (fun t c => ¬ Refused factory inner t c) this calls ∧
          Lost this') := by
  induction calls generalizing this with
  | nil => exact ⟨this, rfl, .inl ⟨trivial, h⟩⟩
  | cons call calls ih =>
    obtain ⟨this₁, hnext, hkept, hlost⟩ := next_kept factory inner call h
    by_cases hr : Refused factory inner this call
    · obtain ⟨this', hrun, h'⟩ := run_lost factory inner calls (hlost hr)
      exact ⟨this', by rw [Machine.run_cons, hnext]; exact hrun, .inr ⟨fun hall => hall.1 hr, h'⟩⟩
    · obtain ⟨this', hrun, h'⟩ := ih (hkept hr)
      refine ⟨this', by rw [Machine.run_cons, hnext]; exact hrun, ?_⟩
      rcases h' with ⟨hall, h'⟩ | ⟨hall, h'⟩
      · exact .inl ⟨.cons hnext hr hall, h'⟩
      · exact .inr ⟨fun hall' => hall (hall'.2 _ hnext), h'⟩

/-! ### The disposal -/

/-- The inner stream is disposed of once if there is one, none is made by `Dispose`, and
no `Dispose` throws anything but what the inner stream's throws. -/
def Exact (factory : Except ε σ) (inner : InnerStream σ ε) (calls : List (Call ε)) (n : Nat) :
    Prop :=
  ∃ this rs this', (machine factory inner).run new calls = some this ∧
    disposes inner n this = some (rs, this') ∧ this'.made = this.made ∧ this'.made ≤ 1 ∧
    this'.disposed = this'.made ∧ ∀ r ∈ rs, r ≠ .error .nullReference

theorem dispose_eq (this : Life σ ε) : dispose inner this =
    match this.stream with
    | none => some (.error .nullReference, this)
    | some (.created s) => some ((inner.dispose s).1.mapError .own,
        { this with stream := none, disposed := this.disposed + 1 })
    | some _ => some (.ok PUnit.unit, { this with stream := none }) := by
  obtain ⟨stream, virtualPosition, made, disposed⟩ := this
  cases stream with
  | none => rfl
  | some l => cases l <;> rfl

/-- A `Dispose` behind the first asks null. -/
theorem disposes_null {this : Life σ ε} (h : this.stream = none) (n : Nat) :
    disposes inner n this = some (List.replicate n (.error .nullReference), this) := by
  induction n with
  | zero => rfl
  | succ n ih => simp [disposes, dispose_eq, h, ih, List.replicate_succ]

theorem disposes_succ {this this' : Life σ ε} {r : Except (Failure ε) PUnit}
    (h : dispose inner this = some (r, this')) (hnull : this'.stream = none) (n : Nat) :
    disposes inner (n + 1) this =
      some (r :: List.replicate n (.error .nullReference), this') := by
  simp [disposes, h, disposes_null inner hnull]

theorem dispose_kept {this : Life σ ε} (h : Kept this) :
    ∃ r this', dispose inner this = some (r, this') ∧ this'.stream = none ∧
      this'.made = this.made ∧ this'.made ≤ 1 ∧ this'.disposed = this'.made ∧
      r ≠ .error .nullReference := by
  rw [dispose_eq]
  rcases h with h | h | h <;> have hmade := h.made <;> have hdisposed := h.disposed <;>
    rcases h.cases with ⟨hphase, hs⟩ | ⟨hphase, s, hs⟩ | ⟨hphase, ex, hs⟩ <;> cases hphase <;>
    rw [hs]
  · exact ⟨_, _, rfl, rfl, rfl, by simp [hmade], by simp [hmade, hdisposed], nofun⟩
  · refine ⟨_, _, rfl, rfl, rfl, by simp [hmade], by simp [hmade, hdisposed], ?_⟩
    cases (inner.dispose s).1 <;> exact nofun
  · exact ⟨_, _, rfl, rfl, rfl, by simp [hmade], by simp [hmade, hdisposed], nofun⟩

theorem dispose_lost {this : Life σ ε} (h : Lost this) :
    ∃ r this', dispose inner this = some (r, this') ∧ this'.stream = none ∧
      this'.made = 1 ∧ this'.disposed = 0 := by
  rw [dispose_eq]
  rcases h.cases with ⟨⟨⟩, -⟩ | ⟨⟨⟩, -⟩ | ⟨-, ex, hs⟩
  rw [hs]
  exact ⟨_, _, rfl, rfl, h.made, h.disposed⟩

theorem new_kept : Kept (new : Life σ ε) := .inl ⟨rfl, rfl, rfl⟩

/-- **The disposal is exact iff there is one `Dispose` and no call has created the inner
stream at a position that it refuses.** -/
theorem disposal_exact_iff (calls : List (Call ε)) (n : Nat) :
    Exact factory inner calls (n + 1) ↔ n = 0 ∧
      (machine factory inner).AllSteps (fun t c => ¬ Refused factory inner t c) new calls := by
  obtain ⟨this, hrun, ⟨hall, h⟩ | ⟨hall, h⟩⟩ :=
    run_kept factory inner calls new_kept
  · obtain ⟨r, this', hdispose, hnull, hsame, hmade, hdisposed, hr⟩ :=
      dispose_kept inner h
    have hdisposes := disposes_succ inner hdispose hnull n
    constructor
    · intro ⟨this₁, rs, this₂, hrun₁, hdisposes₁, _, _, _, hrs⟩
      cases hrun.symm.trans hrun₁
      cases hdisposes.symm.trans hdisposes₁
      refine ⟨?_, hall⟩
      by_contra hn
      exact hrs (.error .nullReference) (by simp [hn]) rfl
    · intro ⟨hn, _⟩
      subst hn
      exact ⟨this, _, this', hrun, hdisposes, hsame, hmade, hdisposed, by simpa using hr⟩
  · refine ⟨?_, fun ⟨_, hall'⟩ => absurd hall' hall⟩
    intro ⟨this₁, rs, this₂, hrun₁, hdisposes₁, _, _, hdisposed, _⟩
    obtain ⟨r, this', hdispose, hnull, hmade, hzero⟩ := dispose_lost inner h
    cases hrun.symm.trans hrun₁
    cases (disposes_succ inner hdispose hnull n).symm.trans hdisposes₁
    omega

end Runs

/-- A stream without content, at a position that is not negative. -/
def emptyStream : InnerStream Int64 Unit where
  flush p := (.ok (), p)
  seek offset _ p := if offset < 0 then (.error (), p) else (.ok offset, offset)
  setLength _ p := (.error (), p)
  read _ p := (.ok [], p)
  write _ p := (.error (), p)
  canRead p := (.ok true, p)
  canSeek p := (.ok true, p)
  canWrite p := (.ok false, p)
  canTimeout p := (.ok false, p)
  length p := (.ok 0, p)
  getPosition p := (.ok p, p)
  setPosition v p := if v < 0 then (.error (), p) else (.ok (), v)
  getReadTimeout p := (.error (), p)
  setReadTimeout _ p := (.error (), p)
  getWriteTimeout p := (.error (), p)
  setWriteTimeout _ p := (.error (), p)
  dispose p := (.ok (), p)

/-- Two `Dispose`s; and a read at a negative position, and one at a position that has
wrapped around, whose streams are never disposed of. -/
theorem second_dispose_throws :
    ¬ Exact (.ok 0) emptyStream [] 2 ∧
      ¬ Exact (.ok 0) emptyStream [.setPosition (-1), .read 1] 1 ∧
      ¬ Exact (.ok 0) emptyStream
        [.setPosition Int64.maxValue, .seek (.ok none) 1 .current, .read 1] 1 := by
  refine ⟨?_, ?_, ?_⟩
  · intro ⟨this, rs, this', hrun, hdisposes, _, _, _, hrs⟩
    cases hrun
    cases hdisposes
    exact hrs (.error .nullReference) (by simp) rfl
  · intro ⟨this, rs, this', hrun, hdisposes, _, _, hdisposed, _⟩
    cases hrun
    cases hdisposes
    exact absurd hdisposed (by decide)
  · intro ⟨this, rs, this', hrun, hdisposes, _, _, hdisposed, _⟩
    cases hrun
    cases hdisposes
    exact absurd hdisposed (by decide)

end Garbage.ContentManager.Disposal
