import TopicCodec.Descriptor
import TopicCodec.Wire

/-!
# Sizes known from the program

`Extent` follows the position of an encoder through a program without any instance. A
fixed size exists when no string and no sequence is met; with bounded strings taken at
their longest, the result bounds the size from above. Positions are 64-bit numbers:
growing past them has no result. Aligning is not checked, so that the walk is cut off where
a number would be aligned past the last position.

The elements of an array are not visited one by one. The size of an element depends
on its position only through the remainder by a period that every alignment divides,
so once a remainder repeats, whole cycles are skipped. The remainders are looked up in a
table with one place for each, and the walk is cut off where that table could not be addressed;
that there is memory for a smaller one is taken for granted.
-/
namespace TopicCodec

/-- What sizes depend on besides the program. -/
structure Extent where
  program : Program
  wire : WireFormat
  /-- Count a bounded string as long as its bound. -/
  boundedStrings : Bool

/-- Why following a program leads to no position. -/
inductive Extent.Stop where
  /-- There is no size: instances differ in theirs, or it is no 64-bit number. -/
  | unsized
  | aborted (abort : Abort)
  deriving DecidableEq, Repr

namespace Extent

/-- Positions stay below this bound. -/
def limit : Nat := UInt64.size

def checkedAdd (a b : Nat) : Except Stop Nat :=
  if a + b < limit then .ok (a + b) else .error .unsized

def checkedMul (a b : Nat) : Except Stop Nat :=
  if a * b < limit then .ok (a * b) else .error .unsized

/-- The next multiple of the alignment of `width`. -/
def alignUp (wire : WireFormat) (position width : Nat) : Except Stop Nat :=
  let align := wire.alignFor width
  (Abort.multiply ((position + (align - 1)) / align) align).mapError .aborted

/-- Remainders of positions by this number decide the sizes of elements, since every alignment
divides it: a cap that is a power of two is a multiple of every alignment under it, and 840 is one
of all numbers up to eight. -/
def period (wire : WireFormat) : Nat :=
  if Nat.pow 2 wire.maxAlign.log2 = wire.maxAlign then wire.maxAlign else 840

/-- The position after `count` steps, one by one. -/
def iterate {m : Type → Type} [Monad m] (step : Nat → m Nat) : (count position : Nat) → m Nat
  | 0, position => pure position
  | count + 1, position => step position >>= iterate step count

/-- A place where a remainder was first met: the steps done and the position. -/
structure Visit where
  done : Nat
  position : Nat

/-- The position after `count` steps of which `done` led to `position`. The fuel bounds the number
of remainders still to be met. -/
def skip (step : Nat → Except Stop Nat) (period count : Nat) :
    (fuel : Nat) → (seen : List (Nat × Visit)) → (done position : Nat) → Except Stop Nat
  | 0, _, _, _ => .error .unsized
  | fuel + 1, seen, done, position =>
      if count ≤ done then .ok position
      else
        match seen.lookup (position % period) with
        | some first => do
            let cycle := done - first.done
            let cycles := (count - done) / cycle
            let skipped ← checkedMul (position - first.position) cycles
            let position ← checkedAdd position skipped
            iterate step ((count - done) % cycle) position
        | none => do
            let next ← step position
            skip step period count fuel ((position % period, ⟨done, position⟩) :: seen)
              (done + 1) next

/-- Bytes of a place in the table of remainders. -/
def visitSize : Nat := 24

/-- The position after `count` steps. The table is asked for before the first of them. -/
def advance (step : Nat → Except Stop Nat) (period count position : Nat) : Except Stop Nat :=
  if Abort.addressable period visitSize then
    skip step period count (min period count + 1) [] 0 position
  else .error (.aborted .table)

/-- The position after a leaf; `enter` gives the position after a nested structure. -/
def leaf (extent : Extent) (enter : UInt32 → Nat → Except Stop Nat) (position : Nat) :
    Leaf → Except Stop Nat
  | .number kind => do checkedAdd (← alignUp extent.wire position kind.width) kind.width
  | .bool => checkedAdd position 1
  | .string (some bound) =>
      if extent.boundedStrings then do
        checkedAdd (← alignUp extent.wire position lengthWidth) (lengthWidth + bound.toNat + 1)
      else .error .unsized
  | .string none => .error .unsized
  | .struct stream => enter stream position

/-- The position after a field. -/
def shape (extent : Extent) (enter : UInt32 → Nat → Except Stop Nat) (position : Nat) :
    Shape → Except Stop Nat
  | .single leaf => extent.leaf enter position leaf
  | .sequence _ => .error .unsized
  | .array leaf count =>
      if count = 0 then .ok position
      else
        match leaf with
        | .number kind => do
            let start ← alignUp extent.wire position kind.width
            let size ← checkedMul kind.width count.toNat
            checkedAdd start size
        | .bool => checkedAdd position count.toNat
        | leaf =>
            advance (extent.leaf enter · leaf) (period extent.wire) count.toNat position

/-- The position after the structure that a stream describes. The fuel bounds the nesting. -/
def stream (extent : Extent) : (fuel : Nat) → (id : UInt32) → (position : Nat) → Except Stop Nat
  | 0, _, _ => .error .unsized
  | fuel + 1, id, position => do
      match extent.program.stream? id with
      | none => .error .unsized
      | some words =>
          let scan := Scan.readAll id words
          let position ← scan.instructions.foldlM
            (fun position insn => extent.shape (extent.stream fuel) position insn.shape) position
          match scan.ending with
          | .ok _ => return position
          | .error _ => .error .unsized

/-- A position, none if there is no size. -/
def answer : Except Stop Nat → Except Abort (Option Nat)
  | .ok position => .ok (some position)
  | .error .unsized => .ok none
  | .error (.aborted abort) => .error abort

theorem answer_eq_some {outcome : Except Stop Nat} {position : Nat} :
    answer outcome = .ok (some position) ↔ outcome = .ok position := by
  rcases outcome with (_ | _) | _ <;> simp [answer]

theorem answer_eq_none {outcome : Except Stop Nat} :
    answer outcome = .ok none ↔ outcome = .error .unsized := by
  rcases outcome with (_ | _) | _ <;> simp [answer]

theorem answer_eq_error {outcome : Except Stop Nat} {abort : Abort} :
    answer outcome = .error abort ↔ outcome = .error (.aborted abort) := by
  rcases outcome with (_ | _) | _ <;> simp [answer]

end Extent

namespace Descriptor

/-- Size of every encoded instance, if all have the same. -/
def fixedSize? (desc : Descriptor) (wire : WireFormat) : Except Abort (Option Nat) :=
  Extent.answer (Extent.stream ⟨desc.program, wire, false⟩ (desc.program.length + 1) 0 0)

/-- An upper bound of the size of the encoded key, if there is one. -/
def maxKeySize? (desc : Descriptor) : Except Abort (Option Nat) :=
  let extent : Extent := ⟨desc.program, .keyHash, true⟩
  match desc.keyInstructions with
  | .error _ => .ok none
  | .ok insns =>
      Extent.answer (insns.foldlM (fun position insn =>
        extent.shape (extent.stream desc.program.length) position insn.shape) 0)

/-- The encoded key has a bound, and it fits a key hash. -/
def keyFits (desc : Descriptor) : Except Abort Bool :=
  desc.maxKeySize?.map fun size => size.any (· ≤ keyHashSize)

end Descriptor
end TopicCodec
