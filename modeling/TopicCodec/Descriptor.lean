import TopicCodec.Name
import TopicCodec.Program

/-!
# Descriptors

A descriptor is what marshalling needs to know of one structure type: its program,
which fields are its key, and optionally a description of the type in markup. A key
refers to an instruction of the root stream by word position.
-/
namespace TopicCodec

structure Key where
  name : String
  /-- Word position of the instruction in the root stream. -/
  index : UInt32
  deriving DecidableEq, Repr

structure Descriptor where
  /-- Full name, in any spelling. -/
  typeName : String
  /-- Size of the structure in the memory of its host. -/
  size : UInt32 := 0
  /-- Alignment of the structure in the memory of its host. -/
  align : UInt32 := 1
  flags : Flags := .empty
  keyCount : UInt32 := 0
  keys : List Key := []
  program : Program
  markup : String := ""
  deriving DecidableEq, Repr

namespace Flags

/-- The type has members of variable size. -/
def variableSize : Flags := ⟨1⟩

/-- The encoded key fits a key hash. -/
def fixedKey : Flags := ⟨2⟩

end Flags

/-- Bytes of a key hash. -/
def keyHashSize : Nat := 16

namespace Descriptor

def canonicalName (desc : Descriptor) : String := Name.canonical desc.typeName

/-- The instruction that starts at word `pc` of the root stream, if one does. A defect counts
only if it stands at or before that position. -/
def rootInstructionAt (desc : Descriptor) (pc : UInt32) : Except Defect (Option Instruction) :=
  match desc.program.root? with
  | none => .error .emptyProgram
  | some words =>
      let scan := Scan.readAll 0 words
      match scan.instructions.find? (pc.toNat ≤ ·.pc) with
      | some insn => .ok (if insn.pc = pc.toNat then some insn else none)
      | none => scan.ending.map fun _ => none

def keyInstruction (desc : Descriptor) (key : Key) : Except Defect Instruction := do
  match ← desc.rootInstructionAt key.index with
  | some insn => return insn
  | none => .error (.keyOutOfRange key.name key.index)

/-- The instructions of the keys, in the order of the key table. -/
def keyInstructions (desc : Descriptor) : Except Defect (List Instruction) :=
  desc.keys.mapM desc.keyInstruction

end Descriptor
end TopicCodec
