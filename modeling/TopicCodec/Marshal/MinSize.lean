import TopicCodec.Program

/-!
# Fewest bytes of a structure

Before a sequence is grown, its count is held against the bytes that are left, given
the fewest bytes an element can take. For a structure this is the sum over its stream,
padding aside; it is worked out once and remembered. Zero is always a lower bound, so a
defective stream, or one that is too deep inside itself, counts as zero.
-/
namespace TopicCodec.Marshal

/-- Lower bounds already worked out, by stream. -/
abbrev MinSizes := List (UInt32 × Nat)

/-- Sizes are cut at the largest 64-bit number. -/
def maxSize : Nat := UInt64.size - 1

def saturate (size : Nat) : Nat := min size maxSize

/-- Lower bound of a leaf; `enter` gives the one of a stream. -/
def minLeaf (enter : UInt32 → MinSizes → Nat × MinSizes) (leaf : Leaf) (known : MinSizes) :
    Nat × MinSizes :=
  match leaf with
  | .struct stream => enter stream known
  | leaf => (leaf.minSize, known)

def minShape (enter : UInt32 → MinSizes → Nat × MinSizes) (shape : Shape) (known : MinSizes) :
    Nat × MinSizes :=
  match shape with
  | .single leaf => minLeaf enter leaf known
  | .sequence _ => (4, known)
  | .array leaf count =>
      let (size, known) := minLeaf enter leaf known
      (saturate (size * count.toNat), known)

/-- Sum of lower bounds, from `total` on. -/
def minShapes (enter : UInt32 → MinSizes → Nat × MinSizes) :
    List Instruction → (total : Nat) → MinSizes → Nat × MinSizes
  | [], total, known => (total, known)
  | insn :: rest, total, known =>
      let (size, known) := minShape enter insn.shape known
      minShapes enter rest (saturate (total + size)) known

/-- Lower bound of the structure that a stream describes. The fuel is the nesting still looked
into. -/
def minStream (program : Program) : (fuel : Nat) → (stream : UInt32) → MinSizes → Nat × MinSizes
  | fuel, stream, known =>
      match known.lookup stream with
      | some size => (size, known)
      | none =>
          match fuel, program.stream? stream with
          | fuel + 1, some words =>
              let scan := Scan.readAll stream words
              let (total, known) := minShapes (minStream program fuel) scan.instructions 0 known
              match scan.ending with
              | .ok _ => (total, (stream, total) :: known)
              | .error _ => (0, known)
          | _, _ => (0, known)

/-- Fewest bytes of an element of a sequence. -/
def minElement (program : Program) (leaf : Leaf) (known : MinSizes) : Nat × MinSizes :=
  minLeaf (minStream program program.length) leaf known

end TopicCodec.Marshal
