import TopicCodec.Abort
import TopicCodec.Path
import TopicCodec.Text.Numeral
import TopicCodec.Text.Utf8

/-!
# What can go wrong

`Defect` is a fault of the producer: a malformed instruction stream, a bad key
table, an instance that does not have the described layout. `MarkupError` is a
fault of a type description. `CodecError` is what a marshalling call reports:
either a defect, which no other input can mend, or one of three failures of the
data at hand. The causes are constructors; their wording is in `message`. A computation
that was cut off has found no fault, and nobody is there to hear of one; it has its own
constructor wherever it can happen.
-/
namespace TopicCodec

/-- Why the flags of an instruction word are refused. -/
inductive FlagFault where
  | unknownBits
  | subtypeOnSingle
  | widthMismatch
  | nonNumeric
  deriving DecidableEq, Repr

def FlagFault.message : FlagFault → String
  | .unknownBits => "unknown flag bits"
  | .subtypeOnSingle => "subtype on a non-collection type"
  | .widthMismatch => "signed/floating-point flags do not fit the width"
  | .nonNumeric => "signed/floating-point flags on a non-numeric type"

/-- Failure to read a type description, or to reconcile it with a program. -/
inductive MarkupError where
  | malformed
  | unsupportedVersion (version : String)
  | unexpectedElement (element context : String)
  | missingAttribute (element attr : String)
  | invalidAttribute (element attr value : String)
  | structNotFound (name : String)
  | unresolvedType (name scope : String)
  | mismatch (path reason : String)
  deriving DecidableEq, Repr

def MarkupError.message : MarkupError → String
  | .malformed => "malformed markup"
  | .unsupportedVersion version => s!"unsupported metadata version `{version}`"
  | .unexpectedElement element context => s!"unexpected element <{element}> in {context}"
  | .missingAttribute element attr => s!"<{element}> is missing attribute `{attr}`"
  | .invalidAttribute element attr value =>
      s!"<{element}> has invalid {attr}=\"{value}\""
  | .structNotFound name => s!"struct `{name}` is not described"
  | .unresolvedType name scope => s!"type reference `{name}` does not resolve from `{scope}`"
  | .mismatch path reason => s!"{path}: {reason}"

/-- Defect of a descriptor, of its program, or of an instance's layout. -/
inductive Defect where
  | emptyProgram
  | unknownOpcode (stream : UInt32) (pc : Nat) (word : UInt32)
  | unknownType (stream : UInt32) (pc : Nat) (code : Nat)
  | unsupportedSubtype (stream : UInt32) (pc : Nat) (code : Nat)
  | invalidFlags (stream : UInt32) (pc : Nat) (fault : FlagFault)
  | truncatedInstruction (stream : UInt32) (pc : Nat)
  | missingTerminator (stream : UInt32)
  | trailingInstructions (stream : UInt32) (pc : Nat)
  | streamOutOfRange (stream : UInt32) (pc : Nat) (target : UInt32)
  | recursiveStream (stream : UInt32)
  | arrayTooLarge (stream : UInt32) (pc : Nat) (count : UInt32) (limit : Nat)
  | keyCountMismatch (declared : UInt32) (actual : Nat)
  | keyOutOfRange (name : String) (index : UInt32)
  | keyNotFlagged (name : String) (index : UInt32)
  | keyOnSequence (name : String) (index : UInt32)
  | duplicateKey (name : String)
  | notFixedSize
  | keyNotFixed
  | layoutMismatch (field : Path) (expected found : String)
  | missingField (field : Path)
  | arrayCountMismatch (field : Path) (declared : UInt32) (found : Nat)
  | unknownMember (name : String)
  | duplicateMember (name : String)
  | duplicateType (name : String)
  | unsupportedMember (reason : String)
  | markup (error : MarkupError)
  | noEncapsulation (maxAlign : Nat)
  /-- No defect is known: the search for one was cut off. -/
  | aborted (abort : Abort)
  deriving DecidableEq, Repr

def Defect.message : Defect → String
  | .emptyProgram => "descriptor has no instruction stream"
  | .unknownOpcode stream pc word =>
      let hex := Numeral.prefixedHex 8 word.toNat
      s!"stream {stream} pc {pc}: unknown opcode word {hex}"
  | .unknownType stream pc code =>
      let hex := Numeral.prefixedHex 2 code
      s!"stream {stream} pc {pc}: unknown type code {hex}"
  | .unsupportedSubtype stream pc code =>
      let hex := Numeral.prefixedHex 2 code
      s!"stream {stream} pc {pc}: unsupported collection subtype {hex}"
  | .invalidFlags stream pc fault =>
      s!"stream {stream} pc {pc}: invalid flags ({fault.message})"
  | .truncatedInstruction stream pc =>
      s!"stream {stream} pc {pc}: instruction runs past end of stream"
  | .missingTerminator stream => s!"stream {stream}: missing terminator"
  | .trailingInstructions stream pc =>
      s!"stream {stream}: instructions after terminator at pc {pc}"
  | .streamOutOfRange stream pc target =>
      s!"stream {stream} pc {pc}: sub-stream {target} out of range"
  | .recursiveStream stream =>
      s!"stream {stream} contains itself without an intervening sequence"
  | .arrayTooLarge stream pc count limit =>
      s!"stream {stream} pc {pc}: array of {count} elements exceeds the limit of {limit} values"
  | .keyCountMismatch declared actual =>
      s!"key_count is {declared} but {actual} keys are listed"
  | .keyOutOfRange name index =>
      s!"key `{name}` index {index} is not an instruction of the root stream"
  | .keyNotFlagged name index =>
      s!"key `{name}` index {index} references an instruction without the key flag"
  | .keyOnSequence name index => s!"key `{name}` index {index} references a sequence"
  | .duplicateKey name => s!"key `{name}` listed twice"
  | .notFixedSize => "descriptor is marked optimizable but has variable-size members"
  | .keyNotFixed => "descriptor is marked FIXED_KEY but its key is unbounded or over 16 bytes"
  | .layoutMismatch field expected found =>
      s!"field {field.text}: stream expects {expected}, instance provides {found}"
  | .missingField field => s!"field {field.text}: instance has no such field"
  | .arrayCountMismatch field declared found =>
      s!"field {field.text}: array declares {declared} elements, instance holds {found}"
  | .unknownMember name => s!"member `{name}` is not declared"
  | .duplicateMember name => s!"member `{name}` declared twice"
  | .duplicateType name => s!"type `{name}` is already registered"
  | .unsupportedMember reason => s!"unsupported member type: {reason}"
  | .markup error => s!"metadata: {error.message}"
  | .noEncapsulation maxAlign => s!"no encapsulation identifier for max_align {maxAlign}"
  | .aborted abort => abort.message

/-- The messages of a defect and of what caused it, outermost first. -/
def Defect.report (defect : Defect) : List String :=
  match defect with
  | .markup error => [defect.message, error.message]
  | _ => [defect.message]

/-- Why a length is refused. -/
inductive LengthFault where
  | sequenceTooLong
  | sequenceOverLimit
  | stringWithoutTerminator
  | stringTooLong
  | stringOverLimit
  | stringOverBound
  deriving DecidableEq, Repr

def LengthFault.message : LengthFault → String
  | .sequenceTooLong => "sequence longer than max_sequence_len"
  | .sequenceOverLimit => "sequence count exceeds max_sequence_len"
  | .stringWithoutTerminator => "string length must count the terminating NUL"
  | .stringTooLong => "string longer than max_string_len"
  | .stringOverLimit => "string length exceeds max_string_len"
  | .stringOverBound => "string longer than its bound"

/-- Structures may nest this deep below the root. -/
def maxNesting : Nat := 256

/-- Why content is refused. -/
inductive EncodingFault where
  | nesting
  | interiorNul
  | unterminated
  | notUtf8 (fault : Utf8.Fault)
  | booleanByte (byte : UInt8)
  | unknownEncapsulation (kind : UInt16)
  deriving DecidableEq, Repr

def EncodingFault.message : EncodingFault → String
  | .nesting => s!"nesting deeper than {maxNesting} levels"
  | .interiorNul => "string contains an interior NUL"
  | .unterminated => "string is not NUL-terminated"
  | .notUtf8 fault => s!"string is not valid UTF-8: {fault.message}"
  | .booleanByte byte => "boolean byte " ++ Numeral.prefixedHex 2 byte.toNat
  | .unknownEncapsulation kind =>
      "unknown encapsulation identifier " ++ Numeral.prefixedHex 4 kind.toNat

/-- Outcome of a marshalling call that did not succeed. -/
inductive CodecError where
  | configuration (typeName : String) (defect : Defect)
  | truncatedInput (field : Path) (offset needed available : Nat)
  | malformedLength (field : Path) (offset length : Nat) (fault : LengthFault)
  | invalidEncoding (field : Path) (offset : Nat) (fault : EncodingFault)
  /-- The call was cut off. -/
  | aborted (abort : Abort)
  deriving DecidableEq, Repr

namespace CodecError

def message : CodecError → String
  | configuration typeName defect => s!"configuration error in `{typeName}`: {defect.message}"
  | truncatedInput field offset needed available =>
      s!"truncated input at byte {offset} reading {field.text}: " ++
        s!"need {needed} bytes, {available} left"
  | malformedLength field offset length fault =>
      s!"malformed length {length} at byte {offset} for {field.text}: {fault.message}"
  | invalidEncoding field offset fault =>
      s!"invalid encoding at byte {offset} for {field.text}: {fault.message}"
  | aborted abort => abort.message

/-- A defect stays whatever the data is; the other failures may go away with other data. -/
def isRecoverable : CodecError → Bool
  | configuration .. | aborted _ => false
  | _ => true

/-- The field a failure of the data is attributed to. -/
def field? : CodecError → Option Path
  | configuration .. | aborted _ => none
  | truncatedInput field .. | malformedLength field .. | invalidEncoding field .. => some field

/-- The messages of the failure and of what caused it, outermost first. -/
def report (error : CodecError) : List String :=
  match error with
  | configuration _ defect => error.message :: defect.report
  | _ => [error.message]

end CodecError
end TopicCodec
