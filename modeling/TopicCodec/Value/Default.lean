import TopicCodec.Value

/-!
# Default instances

The default of a program's structure has zeros, empty texts and empty sequences. Every
scalar, text and structure counts against a budget; an array is refused when the copies
of its element do not fit what is left of it. A count that has run out stays at zero.
-/
namespace TopicCodec

/-- Values that one default instance may hold. -/
def maxDefaultValues : Nat := 16777216

namespace Program

/-- The default of a leaf; `enter` makes the default of a nested structure. -/
def defaultLeaf (enter : UInt32 → Nat → Except Defect (Value × Nat)) (leaf : Leaf) (budget : Nat) :
    Except Defect (Value × Nat) :=
  match leaf with
  | .number kind => .ok (.scalar (.zero kind), budget - 1)
  | .bool => .ok (.scalar (.bool false), budget - 1)
  | .string _ => .ok (.text "", budget - 1)
  | .struct stream => enter stream (budget - 1)

/-- The default of a field of the structure that `stream` describes. -/
def defaultField (program : Program) (enter : UInt32 → Nat → Except Defect (Value × Nat))
    (stream : UInt32) (insn : Instruction) (budget : Nat) : Except Defect (Value × Nat) :=
  match insn.shape with
  | .single leaf => defaultLeaf enter leaf budget
  | .sequence leaf => .ok (.sequence (.leaf program leaf) [], budget)
  | .array leaf count => do
      let (value, left) ← defaultLeaf enter leaf budget
      let copies := (budget - left) * (count.toNat - 1)
      if copies ≤ left then
        return (.array (List.replicate count.toNat value), left - copies)
      else .error (.arrayTooLarge stream insn.pc count maxDefaultValues)

/-- Adds the defaults of fields; of two for one index the later stays. -/
def defaultFields (program : Program) (enter : UInt32 → Nat → Except Defect (Value × Nat))
    (stream : UInt32) :
    List Instruction → List (UInt32 × Value) → Nat → Except Defect (List (UInt32 × Value) × Nat)
  | [], fields, budget => .ok (fields, budget)
  | insn :: rest, fields, budget => do
      let (value, left) ← defaultField program enter stream insn budget
      defaultFields program enter stream rest (Value.insertField insn.field value fields) left

/-- The default of the structure that `stream` describes. The fuel bounds the nesting, which in a
valid program is less than the number of streams. -/
def defaultStruct (program : Program) : (fuel : Nat) → (stream : UInt32) → (budget : Nat) →
    Except Defect (Value × Nat)
  | 0, stream, _ => .error (.recursiveStream stream)
  | fuel + 1, stream, budget => do
      match program.stream? stream with
      | none => .error (.streamOutOfRange stream 0 stream)
      | some words =>
          let scan := Scan.readAll stream words
          let (fields, left) ←
            defaultFields program (defaultStruct program fuel) stream scan.instructions [] budget
          let _ ← scan.ending
          return (.struct fields, left)

/-- The default instance of the structure that `stream` describes, in a valid program. -/
def default (program : Program) (stream : UInt32) : Except Defect Value := do
  program.validate
  let (value, _) ← program.defaultStruct (program.length + 1) stream maxDefaultValues
  return value

/-- The default of one element of a sequence. -/
def defaultElement (program : Program) (leaf : Leaf) : Except Defect Value := do
  let (value, _) ←
    defaultLeaf (program.defaultStruct (program.length + 1)) leaf maxDefaultValues
  return value

end Program

namespace Supply

/-- The items cut or extended to `length`, and the supply afterwards. -/
def resize (supply : Supply) (items : List Value) (length : Nat) :
    Except Defect (Supply × List Value) :=
  match supply with
  | .leaf program element =>
      if length ≤ items.length then .ok (supply, items.take length)
      else do
        let value ← program.defaultElement element
        return (supply, items ++ List.replicate (length - items.length) value)
  | .copies element =>
      .ok (supply, items.take length ++ List.replicate (length - items.length) element)
  | .vacant limit complaint kept =>
      if limit < length then .error (.unsupportedMember complaint)
      else
        let kept := match items with
          | .scalar value :: _ => some value
          | _ => kept
        let first := match kept with
          | some value => .scalar value
          | none => .absent
        .ok (.vacant limit complaint kept,
          (first :: List.replicate (limit - 1) .absent).take length)

end Supply
end TopicCodec
