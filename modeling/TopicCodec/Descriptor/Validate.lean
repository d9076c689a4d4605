import TopicCodec.Descriptor.Size
import TopicCodec.Markup.Check
import TopicCodec.Markup.Reader

/-!
# Validation of descriptors

A valid descriptor has a valid program, a key table that names flagged single or array
fields of the root structure, flags that tell the truth about sizes, and markup, if any,
that agrees with the program.
-/
namespace TopicCodec.Descriptor

/-- Checks the keys against their instructions, given the names before. -/
def checkKeys (names : List String) : List (Key × Instruction) → Except Defect Unit
  | [] => .ok ()
  | (key, insn) :: rest =>
      if key.name ∈ names then .error (.duplicateKey key.name)
      else if !insn.key then .error (.keyNotFlagged key.name key.index)
      else if insn.shape.isSequence then .error (.keyOnSequence key.name key.index)
      else checkKeys (key.name :: names) rest

def checkMarkup (desc : Descriptor) : Except MarkupError Unit := do
  let document ← Markup.Document.read desc.markup
  document.check desc.typeName desc.program

/-- Not being marked as of variable size means a fixed size. -/
def checkSize (desc : Descriptor) : Except Defect Unit := do
  if !desc.flags.contains .variableSize then
    let size ← (desc.fixedSize? {}).mapError .aborted
    if size.isNone then .error .notFixedSize

/-- Being marked as of fixed key means that the key fits a key hash. -/
def checkKeySize (desc : Descriptor) : Except Defect Unit := do
  if desc.flags.contains .fixedKey then
    let fits ← desc.keyFits.mapError .aborted
    if !fits then .error .keyNotFixed

def validate (desc : Descriptor) : Except Defect Unit := do
  desc.program.validate
  if desc.keyCount.toNat ≠ desc.keys.length then
    .error (.keyCountMismatch desc.keyCount desc.keys.length)
  let insns ← desc.keyInstructions
  checkKeys [] (desc.keys.zip insns)
  desc.checkSize
  desc.checkKeySize
  if desc.markup ≠ "" then desc.checkMarkup.mapError .markup

end TopicCodec.Descriptor
