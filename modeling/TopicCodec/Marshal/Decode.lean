import TopicCodec.Marshal.Encode
import TopicCodec.Marshal.MinSize
import TopicCodec.Value.Default
import TopicCodec.Wire.Cursor

/-!
# Decoding into an instance

The instructions of a stream are carried out in order, each overwriting a field of a
given instance with what is read. Every length is checked before anything is made of
it: against the limits of the wire format, and, for a sequence, against the bytes that
are left. Bytes after the last field are not looked at.
-/
namespace TopicCodec.Marshal

/-- Where decoding stands. -/
structure Reading where
  cursor : Cursor
  known : MinSizes

/-- What a decoding walk is about. -/
structure DecodeWalk extends Walk where
  /-- Refuse a sequence at once if the bytes left cannot hold its elements. -/
  checkRoom : Bool := true

/-- A read of the field at `path`. -/
def Reading.read {α : Type} (reading : Reading) (path : Path)
    (read : Cursor → Except Shortfall α × Cursor) : Except CodecError (α × Reading) :=
  match read reading.cursor with
  | (.ok value, cursor) => .ok (value, { reading with cursor })
  | (.error short, _) =>
      .error (.truncatedInput path short.offset short.needed short.available)

/-- Reads into one place after the other. -/
def readAll {α β : Type} (read : α → Reading → Except CodecError (β × Reading)) :
    List α → Reading → Except CodecError (List β × Reading)
  | [], reading => .ok ([], reading)
  | first :: rest, reading => do
      let (value, reading) ← read first reading
      let (values, reading) ← readAll read rest reading
      return (value :: values, reading)

/-- The text of the bytes of a string, terminator included, of which the first is at `start`. -/
def checkText (bytes : List UInt8) (path : Path) (start : Nat) : Except CodecError String :=
  let body := bytes.dropLast
  if bytes.getLast? ≠ some 0 then
    .error (.invalidEncoding path (start + body.length) .unterminated)
  else
    match body.findIdx? (· == 0) with
    | some i => .error (.invalidEncoding path (start + i) .interiorNul)
    | none =>
        match Utf8.decode body with
        | .ok text => .ok text
        | .error fault => .error (.invalidEncoding path (start + fault.validUpTo) (.notUtf8 fault))

/-- The length of a string, terminator included, read at `offset`. -/
def checkTextLength (wire : WireFormat) (bound : Option UInt32) (length : Nat) (path : Path)
    (offset : Nat) : Except CodecError Unit :=
  if length = 0 then .error (.malformedLength path offset length .stringWithoutTerminator)
  else if wire.maxStringLen.toNat < length then
    .error (.malformedLength path offset length .stringOverLimit)
  else if bound.any (·.toNat < length - 1) then
    .error (.malformedLength path offset length .stringOverBound)
  else .ok ()

def decodeText (wire : WireFormat) (bound : Option UInt32) (path : Path) (reading : Reading) :
    Except CodecError (String × Reading) := do
  let offset := reading.cursor.offset + reading.cursor.padding wire lengthWidth
  let (length, reading) ← reading.read path (Cursor.length wire)
  checkTextLength wire bound length path offset
  let (bytes, reading) ← reading.read path (Cursor.take length)
  let text ← checkText bytes path (offset + lengthWidth)
  return (text, reading)

def decodeBool (path : Path) (reading : Reading) : Except CodecError (Bool × Reading) := do
  let offset := reading.cursor.offset
  let (bytes, reading) ← reading.read path (Cursor.take 1)
  match bytes with
  | [0] => return (false, reading)
  | [1] => return (true, reading)
  | _ => .error (.invalidEncoding path offset (.booleanByte (bytes.headD 0)))

/-- Reads a nested structure: stream, its words, value to overwrite and path. -/
abbrev DecodeNested :=
  UInt32 → Stream → Value → Path → Reading → Except CodecError (Value × Reading)

def decodeLeaf (walk : DecodeWalk) (enter : DecodeNested) (stream : UInt32) (pc : Nat)
    (leaf : Leaf) (value : Value) (path : Path) (reading : Reading) :
    Except CodecError (Value × Reading) :=
  let mismatch := .error (walk.defect (.layoutMismatch path leaf.text value.kindName))
  match leaf, value with
  | .number kind, .scalar (.number found _) =>
      if kind = found then do
        let (bits, reading) ← reading.read path (Cursor.scalar walk.wire kind)
        return (.scalar (.number kind bits), reading)
      else mismatch
  | .bool, .scalar (.bool _) => do
      let (flag, reading) ← decodeBool path reading
      return (.scalar (.bool flag), reading)
  | .string bound, .text _ => do
      let (text, reading) ← decodeText walk.wire bound path reading
      return (.text text, reading)
  | .struct target, .struct _ =>
      match walk.nested stream pc target with
      | .ok words => enter target words value path reading
      | .error error => .error error
  | _, _ => mismatch

/-- Reads into an element of the collection at `path`. -/
def decodeElement (walk : DecodeWalk) (enter : DecodeNested) (stream : UInt32) (pc : Nat)
    (leaf : Leaf) (path : Path) : Value × Nat → Reading → Except CodecError (Value × Reading)
  | (.absent, i), _ => .error (walk.defect (.missingField (path.element i)))
  | (item, i), reading => decodeLeaf walk enter stream pc leaf item (path.element i) reading

def decodeElements (walk : DecodeWalk) (enter : DecodeNested) (stream : UInt32) (pc : Nat)
    (leaf : Leaf) (items : List Value) (path : Path) (reading : Reading) :
    Except CodecError (List Value × Reading) :=
  readAll (decodeElement walk enter stream pc leaf path) items.zipIdx reading

/-- Reads the count of a sequence of `leaf` and checks that it can be met. -/
def decodeCount (walk : DecodeWalk) (leaf : Leaf) (path : Path) (reading : Reading) :
    Except CodecError (Nat × Reading) := do
  let offset := reading.cursor.offset + reading.cursor.padding walk.wire lengthWidth
  let (count, reading) ← reading.read path (Cursor.length walk.wire)
  if walk.wire.maxSequenceLen.toNat < count then
    .error (.malformedLength path offset count .sequenceOverLimit)
  let (size, known) := minElement walk.desc.program leaf reading.known
  let needed := saturate (count * size)
  let available := reading.cursor.remaining
  if walk.checkRoom && available < needed then
    .error (.truncatedInput path reading.cursor.offset needed available)
  return (count, { reading with known })

def decodeShape (walk : DecodeWalk) (enter : DecodeNested) (stream : UInt32) (pc : Nat)
    (shape : Shape) (value : Value) (path : Path) (reading : Reading) :
    Except CodecError (Value × Reading) :=
  match shape, value with
  | .single leaf, value => decodeLeaf walk enter stream pc leaf value path reading
  | .sequence leaf, .sequence supply items => do
      let (count, reading) ← decodeCount walk leaf path reading
      let (supply, items) ← (supply.resize items count).mapError walk.defect
      let (items, reading) ← decodeElements walk enter stream pc leaf items path reading
      return (.sequence supply items, reading)
  | .array leaf count, .array items =>
      let elements := Value.flattenItems items
      if elements.length ≠ count.toNat then
        .error (walk.defect (.arrayCountMismatch path count elements.length))
      else do
        let (elements, reading) ← decodeElements walk enter stream pc leaf elements path reading
        return (.array (Value.refillItems items elements).1, reading)
  | _, _ => .error (walk.defect (.layoutMismatch path shape.text value.kindName))

/-- Reads into one field of the structure at `path`. -/
def decodeField (walk : DecodeWalk) (enter : DecodeNested) (stream : UInt32) (path : Path)
    (insn : Instruction) (value : Value) (reading : Reading) :
    Except CodecError (Value × Reading) :=
  let here := path.field insn.field
  match value.field? insn.field with
  | none => .error (walk.defect (.missingField here))
  | some found => do
      let (found, reading) ← decodeShape walk enter stream insn.pc insn.shape found here reading
      return (value.setField insn.field found, reading)

/-- Carries out instructions on a structure, one after the other. -/
def decodeFields (decode : Instruction → Value → Reading → Except CodecError (Value × Reading)) :
    List Instruction → Value → Reading → Except CodecError (Value × Reading)
  | [], value, reading => .ok (value, reading)
  | insn :: rest, value, reading => do
      let (value, reading) ← decode insn value reading
      decodeFields decode rest value reading

/-- Reads into the structure that a stream describes. The fuel is the nesting still allowed. -/
def decodeStruct (walk : DecodeWalk) : (fuel : Nat) → DecodeNested
  | 0, _, _, _, path, reading => .error (.invalidEncoding path reading.cursor.offset .nesting)
  | fuel + 1, stream, words, value, path, reading => do
      let scan := Scan.read stream words
      let (value, reading) ← decodeFields
        (decodeField walk (decodeStruct walk fuel) stream path) scan.instructions value reading
      match scan.ending with
      | .ok _ => return (value, reading)
      | .error defect => .error (walk.defect defect)

/-- Reads into a whole instance; also gives the place where reading stopped. -/
def decode (walk : DecodeWalk) (value : Value) (bytes : List UInt8) :
    Except CodecError (Value × Reading) := do
  let words ← walk.root
  decodeStruct walk (maxNesting + 1) 0 words value .root ⟨.start bytes, []⟩

end TopicCodec.Marshal
