import TopicCodec.Error
import TopicCodec.Flags
import TopicCodec.Scalar

/-!
# Instructions

A program describes a structure by one instruction per field. An instruction is
a few 32-bit words: a head word (operation, type, subtype and flags, one byte
each, from the most significant down), the field index and, depending on the
type, an element count, a string bound or a stream reference, in that order. A
stream is the concatenation of its instructions and one terminator word `0`.

`Instruction.encode` writes the words of an instruction, `Op.read` reads the
next operation of a stream.
-/
namespace TopicCodec

/-- Element type of a field: everything that is not itself a collection. -/
inductive Leaf where
  | number (kind : ScalarKind)
  | bool
  | string (bound : Option UInt32)
  /-- A structure described by the given stream. -/
  | struct (stream : UInt32)
  deriving DecidableEq, Repr

inductive Shape where
  | single (leaf : Leaf)
  | sequence (leaf : Leaf)
  /-- A fixed array; several dimensions are carried as their product. -/
  | array (leaf : Leaf) (count : UInt32)
  deriving DecidableEq, Repr

structure Instruction where
  /-- Word position of the head word within its stream. -/
  pc : Nat
  /-- Field index within the enclosing structure. -/
  field : UInt32
  key : Bool
  shape : Shape
  deriving DecidableEq, Repr

namespace Code

/-! Type and subtype codes of the head word. -/

def oneByte : Nat := 0x01
def twoByte : Nat := 0x02
def fourByte : Nat := 0x03
def eightByte : Nat := 0x04
def string : Nat := 0x05
def boundedString : Nat := 0x06
def sequence : Nat := 0x07
def array : Nat := 0x08
def struct : Nat := 0x0a
def bool : Nat := 0x0b

/-- Codes that may stand as the type of a single field. -/
def isSingle (code : Nat) : Bool :=
  code ∈ [oneByte, twoByte, fourByte, eightByte, string, boundedString, struct, bool]

end Code

namespace Flags

/-- The field is part of the identity of its structure. -/
def key : Flags := ⟨1⟩
def signed : Flags := ⟨2⟩
def float : Flags := ⟨4⟩

end Flags

namespace ScalarKind

/-- Width code of the kind. -/
def code (kind : ScalarKind) : Nat :=
  match kind.width with
  | 1 => Code.oneByte
  | 2 => Code.twoByte
  | 4 => Code.fourByte
  | _ => Code.eightByte

/-- Attribute flags the kind implies. -/
def flags (kind : ScalarKind) : Flags :=
  if kind.isSigned then .signed else if kind.isFloat then .float else .empty

/-- The kind with this width code and these attributes; other flags do not matter. -/
def ofCode? (code : Nat) (flags : Flags) : Option ScalarKind :=
  match code, flags.contains .signed, flags.contains .float with
  | 0x01, false, false => some u8
  | 0x01, true, false => some i8
  | 0x02, false, false => some u16
  | 0x02, true, false => some i16
  | 0x03, false, false => some u32
  | 0x03, true, false => some i32
  | 0x03, false, true => some f32
  | 0x04, false, false => some u64
  | 0x04, true, false => some i64
  | 0x04, false, true => some f64
  | _, _, _ => none

end ScalarKind

namespace Leaf

/-- Fewest bytes an element occupies, padding aside; a structure counts as none. -/
def minSize : Leaf → Nat
  | number kind => kind.width
  | bool => 1
  | string _ => 5
  | struct _ => 0

def code : Leaf → Nat
  | number kind => kind.code
  | bool => Code.bool
  | string none => Code.string
  | string (some _) => Code.boundedString
  | struct _ => Code.struct

def flags : Leaf → Flags
  | number kind => kind.flags
  | _ => .empty

/-- Words that follow the count: a bound or a stream reference. -/
def operands : Leaf → List UInt32
  | string (some bound) => [bound]
  | struct stream => [stream]
  | _ => []

def stream? : Leaf → Option UInt32
  | struct stream => some stream
  | _ => none

def text : Leaf → String
  | number kind => kind.name
  | bool => "bool"
  | string none => "string"
  | string (some bound) => s!"string<{bound}>"
  | struct stream => s!"struct@{stream}"

end Leaf

namespace Shape

def leaf : Shape → Leaf
  | single leaf | sequence leaf | array leaf _ => leaf

def isSequence : Shape → Bool
  | sequence _ => true
  | _ => false

/-- Type code and subtype code of the head word. -/
def codes : Shape → Nat × Nat
  | single leaf => (leaf.code, 0)
  | sequence leaf => (Code.sequence, leaf.code)
  | array leaf _ => (Code.array, leaf.code)

/-- Words after the field index. -/
def operands : Shape → List UInt32
  | single leaf | sequence leaf => leaf.operands
  | array leaf count => count :: leaf.operands

/-- Words an instruction of this shape occupies. -/
def length (shape : Shape) : Nat := 2 + shape.operands.length

def text : Shape → String
  | single leaf => leaf.text
  | sequence leaf => s!"sequence<{leaf.text}>"
  | array leaf count => s!"{leaf.text}[{count}]"

end Shape

namespace Instruction

def leaf (insn : Instruction) : Leaf := insn.shape.leaf

/-- Number of words the instruction occupies. -/
def length (insn : Instruction) : Nat := insn.shape.length

/-- Position of the word that refers to another stream. -/
def referencePc? (insn : Instruction) : Option Nat :=
  insn.leaf.stream?.map fun _ => insn.pc + insn.length - 1

/-- Head word of a field instruction. -/
def head (key : Bool) (shape : Shape) : UInt32 :=
  let (type, subtype) := shape.codes
  let flags := if key then shape.leaf.flags ∪ .key else shape.leaf.flags
  UInt32.ofNat (0x01000000 + type * 0x10000 + subtype * 0x100 + flags.bits.toNat)

/-- The words of a field instruction. -/
def words (field : UInt32) (shape : Shape) (key : Bool) : List UInt32 :=
  head key shape :: field :: shape.operands

def encode (insn : Instruction) : List UInt32 := words insn.field insn.shape insn.key

theorem encode_length (insn : Instruction) : insn.encode.length = insn.length := by
  simp only [encode, words, length, Shape.length, List.length_cons]
  omega

def text (insn : Instruction) : String :=
  s!"ADR field {insn.field} {insn.shape.text}" ++ (if insn.key then " key" else "")

end Instruction

/-- One operation of a stream: describe a field, or end. -/
inductive Op where
  | field (insn : Instruction)
  | terminator
  deriving DecidableEq, Repr

namespace Op

/-- The leaf with this code, whose operand, if it has one, is the next word. -/
def readLeaf (stream : UInt32) (pc code : Nat) (flags : Flags) (operands : List UInt32) :
    Except Defect Leaf :=
  let attributed := flags.contains .signed || flags.contains .float
  let plain (leaf : Leaf) : Except Defect Leaf :=
    if attributed then .error (.invalidFlags stream pc .nonNumeric) else .ok leaf
  if code = Code.oneByte ∨ code = Code.twoByte ∨ code = Code.fourByte ∨ code = Code.eightByte then
    match ScalarKind.ofCode? code flags with
    | some kind => .ok (.number kind)
    | none => .error (.invalidFlags stream pc .widthMismatch)
  else if code = Code.bool then plain .bool
  else if code = Code.string then plain (.string none)
  else if code = Code.boundedString then
    match operands with
    | bound :: _ => plain (.string (some bound))
    | [] => .error (.truncatedInstruction stream pc)
  else if code = Code.struct then
    match operands with
    | target :: _ => plain (.struct target)
    | [] => .error (.truncatedInstruction stream pc)
  else if code = Code.sequence ∨ code = Code.array then
    .error (.unsupportedSubtype stream pc code)
  else .error (.unknownType stream pc code)

/-- The shape with these codes, read from the words after the field index. -/
def readShape (stream : UInt32) (pc type subtype : Nat) (flags : Flags) (operands : List UInt32) :
    Except Defect Shape :=
  if type = Code.sequence then
    (readLeaf stream pc subtype flags operands).map .sequence
  else if type = Code.array then
    match operands with
    | [] => .error (.truncatedInstruction stream pc)
    | count :: operands => (readLeaf stream pc subtype flags operands).map (.array · count)
  else if Code.isSingle type then
    if subtype ≠ 0 then .error (.invalidFlags stream pc .subtypeOnSingle)
    else (readLeaf stream pc type flags operands).map .single
  else .error (.unknownType stream pc type)

/-- The first operation of `words`, which are the words of `stream` from position `pc` on. -/
def read (stream : UInt32) (pc : Nat) (words : List UInt32) : Except Defect Op :=
  match words with
  | [] => .error (.missingTerminator stream)
  | word :: rest =>
      let type := word.toNat / 0x10000 % 0x100
      let subtype := word.toNat / 0x100 % 0x100
      let flags : Flags := ⟨UInt32.ofNat (word.toNat % 0x100)⟩
      if word = 0 then .ok .terminator
      else if word.toNat / 0x1000000 ≠ 1 then .error (.unknownOpcode stream pc word)
      else if 8 ≤ word.toNat % 0x100 then .error (.invalidFlags stream pc .unknownBits)
      else
        match rest with
        | [] => .error (.truncatedInstruction stream pc)
        | index :: operands =>
            (readShape stream pc type subtype flags operands).map fun shape =>
              .field ⟨pc, index, flags.contains .key, shape⟩

/-- The operation at position `pc` of a stream. -/
def decode (stream : UInt32) (words : List UInt32) (pc : Nat) : Except Defect Op :=
  read stream pc (words.drop pc)

end Op
end TopicCodec
