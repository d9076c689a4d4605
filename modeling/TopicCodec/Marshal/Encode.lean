import TopicCodec.Descriptor
import TopicCodec.Value
import TopicCodec.Wire.Sink

/-!
# Encoding an instance

The instructions of a stream are carried out in order on the fields of an instance. What
one of them writes depends on the position it starts at, through padding; everything
written goes into a sink. The first failure ends the walk: a field that is missing or is
not what its instruction says, a string or a sequence that the wire format has no room
for, or structures nested too deep. Words of a stream are read as the walk gets to them,
so a defect after a failing field is not seen.
-/
namespace TopicCodec.Marshal

/-- What a walk over an instance is about. -/
structure Walk where
  desc : Descriptor
  wire : WireFormat

/-- A defect as the outcome of a walk. -/
def Walk.defect (walk : Walk) (defect : Defect) : CodecError :=
  .configuration walk.desc.typeName defect

/-- The words of a nested structure that the instruction at `pc` of `stream` refers to. -/
def Walk.nested (walk : Walk) (stream : UInt32) (pc : Nat) (target : UInt32) :
    Except CodecError Stream :=
  match walk.desc.program.stream? target with
  | some words => .ok words
  | none => .error (walk.defect (.streamOutOfRange stream pc target))

variable {σ : Type} [Sink σ]

/-- Writes one thing after the other, each at the position the ones before it lead to. -/
def emitAll {α : Type} (emit : α → Nat → Except CodecError σ) :
    List α → (position : Nat) → Except CodecError σ
  | [], _ => .ok Sink.empty
  | first :: rest, position => do
      let chunk ← emit first position
      let tail ← emitAll emit rest (position + Sink.size chunk)
      return Sink.append chunk tail

def encodeText (wire : WireFormat) (bound : Option UInt32) (text : String) (path : Path)
    (position : Nat) : Except CodecError σ :=
  let length := Utf8.size text
  if (Utf8.encode text).contains 0 then .error (.invalidEncoding path position .interiorNul)
  else if bound.any (·.toNat < length) then
    .error (.malformedLength path position length .stringOverBound)
  else if wire.maxStringLen.toNat ≤ length then
    -- The length on the wire counts the terminator.
    .error (.malformedLength path position (length + 1) .stringTooLong)
  else .ok (Item.emit wire position (.text text))

/-- Writes a nested structure: stream, its words, value, path and position. -/
abbrev EncodeNested (σ : Type) := UInt32 → Stream → Value → Path → Nat → Except CodecError σ

def encodeLeaf (walk : Walk) (enter : EncodeNested σ) (stream : UInt32) (pc : Nat) (leaf : Leaf)
    (value : Value) (path : Path) (position : Nat) : Except CodecError σ :=
  let mismatch := .error (walk.defect (.layoutMismatch path leaf.text value.kindName))
  match leaf, value with
  | .number kind, .scalar (.number found bits) =>
      if kind = found then .ok (Item.emit walk.wire position (.scalar (.number found bits)))
      else mismatch
  | .bool, .scalar (.bool flag) => .ok (Item.emit walk.wire position (.scalar (.bool flag)))
  | .string bound, .text text => encodeText walk.wire bound text path position
  | .struct target, .struct _ =>
      match walk.nested stream pc target with
      | .ok words => enter target words value path position
      | .error error => .error error
  | _, _ => mismatch

/-- Writes an element of the collection at `path`. -/
def encodeElement (walk : Walk) (enter : EncodeNested σ) (stream : UInt32) (pc : Nat)
    (leaf : Leaf) (path : Path) : Value × Nat → Nat → Except CodecError σ
  | (.absent, i), _ => .error (walk.defect (.missingField (path.element i)))
  | (item, i), position => encodeLeaf walk enter stream pc leaf item (path.element i) position

def encodeElements (walk : Walk) (enter : EncodeNested σ) (stream : UInt32) (pc : Nat)
    (leaf : Leaf) (items : List Value) (path : Path) (position : Nat) : Except CodecError σ :=
  emitAll (encodeElement walk enter stream pc leaf path) items.zipIdx position

def encodeShape (walk : Walk) (enter : EncodeNested σ) (stream : UInt32) (pc : Nat) (shape : Shape)
    (value : Value) (path : Path) (position : Nat) : Except CodecError σ :=
  match shape, value with
  | .single leaf, value => encodeLeaf walk enter stream pc leaf value path position
  | .sequence leaf, .sequence _ items =>
      if walk.wire.maxSequenceLen.toNat < items.length then
        .error (.malformedLength path position items.length .sequenceTooLong)
      else do
        let head : σ := Item.emit walk.wire position (.length items.length)
        let body ← encodeElements walk enter stream pc leaf items path (position + Sink.size head)
        return Sink.append head body
  | .array leaf count, .array items =>
      let elements := Value.flattenItems items
      if elements.length ≠ count.toNat then
        .error (walk.defect (.arrayCountMismatch path count elements.length))
      else encodeElements walk enter stream pc leaf elements path position
  | _, _ => .error (walk.defect (.layoutMismatch path shape.text value.kindName))

/-- Writes one field of the structure at `path`. -/
def encodeField (walk : Walk) (enter : EncodeNested σ) (stream : UInt32) (value : Value)
    (path : Path) (insn : Instruction) (position : Nat) : Except CodecError σ :=
  let here := path.field insn.field
  match value.field? insn.field with
  | none => .error (walk.defect (.missingField here))
  | some found => encodeShape walk enter stream insn.pc insn.shape found here position

/-- Writes the structure that a stream describes. The fuel is the nesting still allowed. -/
def encodeStruct (walk : Walk) : (fuel : Nat) → EncodeNested σ
  | 0, _, _, _, path, position => .error (.invalidEncoding path position .nesting)
  | fuel + 1, stream, words, value, path, position => do
      let scan := Scan.read stream words
      let chunk ← emitAll (encodeField walk (encodeStruct walk fuel) stream value path)
        scan.instructions position
      match scan.ending with
      | .ok _ => return chunk
      | .error defect => .error (walk.defect defect)

/-- The words of the root stream. -/
def Walk.root (walk : Walk) : Except CodecError Stream :=
  match walk.desc.program.root? with
  | some words => .ok words
  | none => .error (walk.defect .emptyProgram)

/-- Writes a whole instance. -/
def encode (walk : Walk) (value : Value) : Except CodecError σ := do
  let words ← walk.root
  encodeStruct walk (maxNesting + 1) 0 words value .root 0

/-- Writes the key fields of an instance, in the order of the key table. -/
def encodeKey (walk : Walk) (value : Value) : Except CodecError σ := do
  let insns ← walk.desc.keyInstructions.mapError walk.defect
  emitAll (encodeField walk (encodeStruct walk maxNesting) 0 value .root) insns 0

end TopicCodec.Marshal
