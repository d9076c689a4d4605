import TopicCodec.Marshal.Encode

/-!
# Encoding into a buffer

The walk of `encode`, but every item goes to the end of a buffer as soon as the walk gets to
it, behind whatever the buffer held before. Positions are counted from where the buffer
ended at the start. A failure leaves in the buffer what was written up to there; cutting
that off again is up to the caller.
-/
namespace TopicCodec.Marshal

/-- Writes to the end of a buffer. What was written before a failure stays. -/
abbrev Write := ExceptT CodecError (StateM (Writer (List UInt8)))

namespace Write

/-- Bytes written since the start of the body. -/
def position : Write Nat := return (← get).position

def put (wire : WireFormat) (item : Item) : Write Unit := modify (·.write wire item)

end Write

def writeText (wire : WireFormat) (bound : Option UInt32) (text : String) (path : Path) :
    Write Unit := do
  let position ← Write.position
  let length := Utf8.size text
  if (Utf8.encode text).contains 0 then throw (.invalidEncoding path position .interiorNul)
  else if bound.any (·.toNat < length) then
    throw (.malformedLength path position length .stringOverBound)
  else if wire.maxStringLen.toNat ≤ length then
    throw (.malformedLength path position (length + 1) .stringTooLong)
  else Write.put wire (.text text)

/-- Writes a nested structure: stream, its words, value and path. -/
abbrev WriteNested := UInt32 → Stream → Value → Path → Write Unit

def writeLeaf (walk : Walk) (enter : WriteNested) (stream : UInt32) (pc : Nat) (leaf : Leaf)
    (value : Value) (path : Path) : Write Unit :=
  let mismatch := throw (walk.defect (.layoutMismatch path leaf.text value.kindName))
  match leaf, value with
  | .number kind, .scalar (.number found bits) =>
      if kind = found then Write.put walk.wire (.scalar (.number found bits)) else mismatch
  | .bool, .scalar (.bool flag) => Write.put walk.wire (.scalar (.bool flag))
  | .string bound, .text text => writeText walk.wire bound text path
  | .struct target, .struct _ =>
      match walk.nested stream pc target with
      | .ok words => enter target words value path
      | .error error => throw error
  | _, _ => mismatch

/-- Writes the elements of a collection, which stands at `path`. -/
def writeElements (walk : Walk) (enter : WriteNested) (stream : UInt32) (pc : Nat) (leaf : Leaf)
    (items : List Value) (path : Path) : Write Unit :=
  items.zipIdx.forM fun
    | (.absent, i) => throw (walk.defect (.missingField (path.element i)))
    | (item, i) => writeLeaf walk enter stream pc leaf item (path.element i)

def writeShape (walk : Walk) (enter : WriteNested) (stream : UInt32) (pc : Nat) (shape : Shape)
    (value : Value) (path : Path) : Write Unit :=
  match shape, value with
  | .single leaf, value => writeLeaf walk enter stream pc leaf value path
  | .sequence leaf, .sequence _ items => do
      let position ← Write.position
      if walk.wire.maxSequenceLen.toNat < items.length then
        throw (.malformedLength path position items.length .sequenceTooLong)
      else
        Write.put walk.wire (.length items.length)
        writeElements walk enter stream pc leaf items path
  | .array leaf count, .array items =>
      let elements := Value.flattenItems items
      if elements.length ≠ count.toNat then
        throw (walk.defect (.arrayCountMismatch path count elements.length))
      else writeElements walk enter stream pc leaf elements path
  | _, _ => throw (walk.defect (.layoutMismatch path shape.text value.kindName))

/-- Writes one field of the structure at `path`. -/
def writeField (walk : Walk) (enter : WriteNested) (stream : UInt32) (value : Value) (path : Path)
    (insn : Instruction) : Write Unit :=
  let here := path.field insn.field
  match value.field? insn.field with
  | none => throw (walk.defect (.missingField here))
  | some found => writeShape walk enter stream insn.pc insn.shape found here

/-- Writes the structure that a stream describes. The fuel is the nesting still allowed. -/
def writeStruct (walk : Walk) : (fuel : Nat) → WriteNested
  | 0, _, _, _, path => do throw (.invalidEncoding path (← Write.position) .nesting)
  | fuel + 1, stream, words, value, path => do
      let scan := Scan.read stream words
      scan.instructions.forM (writeField walk (writeStruct walk fuel) stream value path)
      match scan.ending with
      | .ok _ => return ()
      | .error defect => throw (walk.defect defect)

/-- Writes a whole instance. -/
def write (walk : Walk) (value : Value) : Write Unit := do
  let words ← MonadExcept.ofExcept walk.root
  writeStruct walk (maxNesting + 1) 0 words value .root

end TopicCodec.Marshal
