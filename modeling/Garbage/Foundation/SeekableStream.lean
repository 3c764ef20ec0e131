import Garbage.Foundation.Prog
import Mathlib.Data.List.Basic

/-!
# Seekable streams

A seekable stream has a content and a position in it.  `moveTo` is the stream at
another position; every position that is not negative is accepted, a negative one is
`outOfRange`.  What `read`, `write` and `setLength` do is left open, `flush` does
nothing that can be seen.

`ByteStream` is a seekable stream without a bound on its length and positions, as a
file is: a write beyond the end fills the gap with zeros, and the position is never
behind the end after `setLength`.
-/

namespace Garbage.Foundation

inductive SeekOrigin
  | begin_
  | current
  | end_
  deriving DecidableEq

/-- A stream of bytes with a position. -/
class SeekableStream (σ : Type) (ε : outParam Type) where
  content : σ → List UInt8
  position : σ → Int
  moveTo : Int → σ → σ
  outOfRange : ε
  read : Nat → Prog σ ε (List UInt8)
  write : List UInt8 → Prog σ ε PUnit
  setLength : Int → Prog σ ε PUnit
  flush : Prog σ ε PUnit
  content_moveTo : ∀ p s, content (moveTo p s) = content s
  position_moveTo : ∀ p s, position (moveTo p s) = p
  moveTo_moveTo : ∀ p q s, moveTo p (moveTo q s) = moveTo p s
  moveTo_position : ∀ s, moveTo (position s) s = s
  flush_eq : ∀ s, flush s = some (.ok PUnit.unit, s)

namespace SeekableStream

attribute [simp] content_moveTo position_moveTo moveTo_moveTo moveTo_position flush_eq

variable {σ ε : Type} [SeekableStream σ ε]

def length (s : σ) : Int := (content s).length

@[simp] theorem length_moveTo (p : Int) (s : σ) : length (moveTo p s) = length s := by
  rw [length, content_moveTo]
  rfl

def setPosition (value : Int) : Prog σ ε PUnit :=
  if value < 0 then Prog.raise (outOfRange σ) else Prog.modify (moveTo value)

/-- The position that `seek` goes to. -/
def target (offset : Int) (origin : SeekOrigin) (s : σ) : Int :=
  match origin with
  | .begin_ => offset
  | .current => position s + offset
  | .end_ => length s + offset

theorem target_current_moveTo (offset v : Int) (s : σ) :
    target offset .current (moveTo v s) = v + offset := by
  rw [target, position_moveTo]

theorem target_end_moveTo (offset v : Int) (s : σ) :
    target offset .end_ (moveTo v s) = length s + offset := by
  rw [target, length_moveTo]

def seek (offset : Int) (origin : SeekOrigin) : Prog σ ε Int := do
  let s ← Prog.get
  setPosition (target offset origin s)
  pure (target offset origin s)

theorem setPosition_eq {value : Int} (hvalue : 0 ≤ value) (s : σ) :
    setPosition value s = some (.ok PUnit.unit, moveTo value s) := by
  unfold setPosition
  rw [if_neg (Int.not_lt.mpr hvalue)]
  rfl

theorem seek_eq {offset : Int} {origin : SeekOrigin} {s : σ} (h : 0 ≤ target offset origin s) :
    seek offset origin s =
      some (.ok (target offset origin s), moveTo (target offset origin s) s) := by
  show Prog.andThen (setPosition _) _ s = _
  unfold Prog.andThen
  rw [setPosition_eq h]
  rfl

end SeekableStream

/-! ### Streams of bytes -/

structure ByteStream where
  content : List UInt8
  position : Int
  deriving DecidableEq

namespace ByteStream

def read (count : Nat) : Prog ByteStream PUnit (List UInt8) := fun s =>
  let bytes := (s.content.drop s.position.toNat).take count
  some (.ok bytes, { s with position := s.position + bytes.length })

def write (bytes : List UInt8) : Prog ByteStream PUnit PUnit := fun s =>
  let start := s.position.toNat
  let padded := s.content ++ List.replicate (start - s.content.length) 0
  some (.ok PUnit.unit,
    { content := padded.take start ++ bytes ++ padded.drop (start + bytes.length),
      position := s.position + bytes.length })

def setLength (value : Int) : Prog ByteStream PUnit PUnit := fun s =>
  if value < 0 then some (.error PUnit.unit, s)
  else
    let kept := s.content.take value.toNat
    some (.ok PUnit.unit, { content := kept ++ List.replicate (value.toNat - kept.length) 0,
                            position := min s.position value })

instance : SeekableStream ByteStream PUnit where
  content := content
  position := position
  moveTo p s := { s with position := p }
  outOfRange := PUnit.unit
  read := read
  write := write
  setLength := setLength
  flush := pure PUnit.unit
  content_moveTo _ _ := rfl
  position_moveTo _ _ := rfl
  moveTo_moveTo _ _ _ := rfl
  moveTo_position _ := rfl
  flush_eq _ := rfl

end ByteStream

end Garbage.Foundation
