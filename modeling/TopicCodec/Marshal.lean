import TopicCodec.Descriptor.Size
import TopicCodec.Marshal.Buffer
import TopicCodec.Marshal.Decode
import TopicCodec.Md5

/-!
# Marshalling

Instances to bytes and back, under a wire format: the body alone, or a payload whose
header names the byte order and the alignment. From the key fields of an instance
follow its key and its key hash.
-/
namespace TopicCodec

open Marshal

namespace WireFormat

/-- The encoded instance. -/
def serialize (wire : WireFormat) (desc : Descriptor) (value : Value) :
    Except CodecError (List UInt8) :=
  encode ⟨desc, wire⟩ value

/-- Writes the instance to the end of a buffer. If that fails, the buffer is cut to the length that
it had before. -/
def serializeInto (wire : WireFormat) (desc : Descriptor) (value : Value) (out : List UInt8) :
    Except CodecError Unit × List UInt8 :=
  match (write ⟨desc, wire⟩ value).run.run (Writer.start out) with
  | (.ok _, writer) => (.ok (), writer.sink)
  | (.error error, writer) => (.error error, writer.sink.take out.length)

/-- The given instance overwritten with what the bytes hold. -/
def deserializeInto (wire : WireFormat) (desc : Descriptor) (value : Value)
    (bytes : List UInt8) : Except CodecError Value := do
  let (value, _) ← decode { desc, wire } value bytes
  return value

/-- A sample of the descriptor's structure, read from the bytes. -/
def deserialize (wire : WireFormat) (desc : Descriptor) (bytes : List UInt8) :
    Except CodecError Value := do
  let value ← (desc.program.default 0).mapError (.configuration desc.typeName)
  wire.deserializeInto desc value bytes

/-- The encoded key of an instance. -/
def extractKey (wire : WireFormat) (desc : Descriptor) (value : Value) :
    Except CodecError (List UInt8) :=
  encodeKey ⟨desc, wire⟩ value

/-! ## Sizes -/

/-- Whether a value can be the field that an instruction describes, as far as can be seen without
looking into structures. -/
def checkField (insn : Instruction) (here : Path) (value : Value) : Except Defect Unit :=
  let mismatch := .error (.layoutMismatch here insn.shape.text value.kindName)
  match insn.shape, value with
  | .single (.number kind), .scalar (.number found _) => if kind = found then .ok () else mismatch
  | .single .bool, .scalar (.bool _) => .ok ()
  | .single (.string _), .text _ => .ok ()
  | .single (.struct _), .struct _ => .ok ()
  | .sequence _, .sequence .. => .ok ()
  | .array _ count, .array items =>
      let found := (Value.flattenItems items).length
      if found = count.toNat then .ok () else .error (.arrayCountMismatch here count found)
  | _, _ => mismatch

/-- Whether the fields of an instance can be those of the root stream. -/
def checkLayout (program : Program) (value : Value) : Except Defect Unit := do
  match program.root? with
  | none => .error .emptyProgram
  | some words =>
      let scan := Scan.readAll 0 words
      scan.instructions.forM fun insn =>
        let here := Path.root.field insn.field
        match value.field? insn.field with
        | none => .error (.missingField here)
        | some found => checkField insn here found
      let _ ← scan.ending

/-- The number of bytes that the encoded instance has. Where the descriptor says that all
instances have one size, only the fields of the root structure are looked at. -/
def sizeOf (wire : WireFormat) (desc : Descriptor) (value : Value) : Except CodecError Nat := do
  let fixed ←
    if desc.flags.contains .variableSize then pure none
    else (desc.fixedSize? wire).mapError .aborted
  match fixed with
  | some size =>
      ((checkLayout desc.program value).mapError (.configuration desc.typeName)).map fun _ => size
  | none => (encode (σ := Tally) ⟨desc, wire⟩ value).map Tally.count

/-! ## Payloads -/

/-- The encoded instance behind its header, to which it is written. -/
def serializePayload (wire : WireFormat) (desc : Descriptor) (value : Value) :
    Except CodecError (List UInt8) :=
  match wire.encapsulation? with
  | none => .error (.configuration desc.typeName (.noEncapsulation wire.maxAlign))
  | some kind =>
      match wire.serializeInto desc value (encapsulationHeader kind) with
      | (.ok _, out) => .ok out
      | (.error error, _) => .error error

/-- The wire format that the header of a payload names, with the limits of this one, and the
body. -/
def openPayload (wire : WireFormat) (payload : List UInt8) :
    Except CodecError (WireFormat × List UInt8) :=
  match splitPayload payload with
  | .error short =>
      .error (.truncatedInput .root short.offset short.needed short.available)
  | .ok (kind, body) =>
      match ofEncapsulation? kind with
      | none => .error (.invalidEncoding .root 0 (.unknownEncapsulation kind))
      | some framing =>
          .ok ({ wire with byteOrder := framing.byteOrder, maxAlign := framing.maxAlign }, body)

def deserializePayloadInto (wire : WireFormat) (desc : Descriptor) (value : Value)
    (payload : List UInt8) : Except CodecError Value := do
  let (framed, body) ← wire.openPayload payload
  framed.deserializeInto desc value body

def deserializePayload (wire : WireFormat) (desc : Descriptor) (payload : List UInt8) :
    Except CodecError Value := do
  let (framed, body) ← wire.openPayload payload
  framed.deserialize desc body

end WireFormat

/-- The key hash of an instance: its key filled up with zeros where every key fits, else the
digest of its key. -/
def Descriptor.keyHashOf (desc : Descriptor) (value : Value) : Except CodecError (List UInt8) := do
  let key ← WireFormat.keyHash.extractKey desc value
  let fits ← desc.keyFits.mapError .aborted
  return if fits && key.length ≤ keyHashSize then
      key ++ List.replicate (keyHashSize - key.length) 0
    else Md5.digest key

end TopicCodec
