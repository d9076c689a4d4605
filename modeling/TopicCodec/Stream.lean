import TopicCodec.Instruction

/-!
# Streams

A stream is read from its first word to its terminator. `Scan` records the
instructions met and how the reading ended, so that a consumer can act on the
instructions before a defect and report the defect only when it gets there.
`instructions` is the strict reading, where nothing may follow the terminator.

A stream is written by adding fields to a `Draft`, which tells where each of them
stands.
-/
namespace TopicCodec

/-- Words of one stream. -/
abbrev Stream := List UInt32

/-- What reading a stream yields. -/
structure Scan where
  instructions : List Instruction
  /-- Position of the terminator, or the defect that ended the reading. -/
  ending : Except Defect Nat

namespace Scan

def cons (insn : Instruction) (scan : Scan) : Scan :=
  { scan with instructions := insn :: scan.instructions }

/-- Reads on at position `pc`. -/
def readFrom (id : UInt32) (pc : Nat) : List UInt32 → Scan
  | [] => ⟨[], .error (.missingTerminator id)⟩
  | word :: rest =>
      match Op.read id pc (word :: rest) with
      | .error defect => ⟨[], .error defect⟩
      | .ok .terminator => ⟨[], .ok pc⟩
      | .ok (.field insn) =>
          cons insn (readFrom id (pc + insn.length) (rest.drop (insn.length - 1)))
  termination_by words => words.length
  decreasing_by simp only [List.length_drop, List.length_cons]; omega

/-- The lenient reading: words after the terminator are not looked at. -/
def read (id : UInt32) (words : Stream) : Scan := readFrom id 0 words

/-- The strict reading: the terminator is the last word. -/
def readAll (id : UInt32) (words : Stream) : Scan :=
  let scan := read id words
  match scan.ending with
  | .error _ => scan
  | .ok pc =>
      if pc + 1 = words.length then scan
      else { scan with ending := .error (.trailingInstructions id (pc + 1)) }

/-- The instructions of a reading that met no defect. -/
def complete (scan : Scan) : Except Defect (List Instruction) :=
  scan.ending.map fun _ => scan.instructions

end Scan

namespace Stream

/-- The instructions of a well-formed stream. -/
def instructions (id : UInt32) (words : Stream) : Except Defect (List Instruction) :=
  (Scan.readAll id words).complete

/-- The words of a stream with these fields, the terminator included. -/
def assemble (fields : List (UInt32 × Shape × Bool)) : Stream :=
  fields.flatMap (fun (field, shape, key) => Instruction.words field shape key) ++ [0]

/-- The same, from instructions that know their positions. -/
def ofInstructions (insns : List Instruction) : Stream :=
  insns.flatMap Instruction.encode ++ [0]

end Stream

/-- A stream that is being put together: the words of its fields so far. -/
structure Draft where
  words : List UInt32 := []
  deriving DecidableEq, Repr

namespace Draft

/-- Word position that the next field gets. -/
def pc (draft : Draft) : UInt32 := UInt32.ofNat draft.words.length

/-- Adds a field; also gives its word position. -/
def field (draft : Draft) (index : UInt32) (shape : Shape) (key : Bool) : Draft × UInt32 :=
  (⟨draft.words ++ Instruction.words index shape key⟩, draft.pc)

/-- Adds fields in order; also gives their word positions. -/
def fields (draft : Draft) : List (UInt32 × Shape × Bool) → Draft × List UInt32
  | [] => (draft, [])
  | (index, shape, key) :: rest =>
      let (next, pc) := draft.field index shape key
      let (last, pcs) := next.fields rest
      (last, pc :: pcs)

/-- The words of the finished stream. -/
def finish (draft : Draft) : Stream := draft.words ++ [0]

end Draft
end TopicCodec
