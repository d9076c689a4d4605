import TopicCodec.Command
import TopicCodec.Command.Help
import TopicCodec.Descriptor.Validate
import TopicCodec.Marshal
import TopicCodec.Program.Listing
import TopicCodec.Report
import TopicCodec.Table.Json
import TopicCodec.Text.Hex
import TopicCodec.View
import TopicCodec.Yaml.Reader

/-!
# Running commands

What a command prints and saves, given the files it reads. Descriptors whose name ends in
`.json` are JSON, all others and wire formats are YAML.
-/
namespace TopicCodec

/-- What a command can read. -/
structure Inputs where
  file? : String → Option (List UInt8)
  /-- The standard input. -/
  input : List UInt8 := []

structure Outcome where
  code : UInt8 := 0
  out : String := ""
  err : String := ""
  /-- A file to write, and its contents. -/
  saved : Option (String × List UInt8) := none

namespace Outcome

def printed (out : String) : Outcome := { out }

def failed (report : Report) : Outcome := { code := 1, err := Report.clip report.text }

/-- A command line that is none. -/
def misused : Outcome := { code := 2 }

/-- A command that was cut off after printing `out`. -/
def aborted (out : String) (abort : Abort) : Outcome :=
  { code := 101, out, err := Report.lines [abort.message] }

/-- The outcome once the file has been written or could not be. -/
def settle (outcome : Outcome) (written : String → Bool) : Outcome :=
  match outcome.saved with
  | some (path, _) => if written path then outcome else failed [s!"writing {path}"]
  | none => outcome

end Outcome

/-- Why a command did not get to its end. -/
inductive Failure where
  | report (report : Report)
  /-- It was cut off, with this much printed. -/
  | aborted (out : String) (abort : Abort)

namespace Failure

/-- A defect of what `context` tells. -/
def ofDefect (context : Report) : Defect → Failure
  | .aborted abort => .aborted "" abort
  | defect => .report (context ++ defect.report)

def ofCodecError : CodecError → Failure
  | .aborted abort => .aborted "" abort
  | error => .report error.report

def ofViewError : ViewError → Failure
  | .aborted abort => .aborted "" abort
  | error => .report error.report

def outcome : Failure → Outcome
  | .report complaint => .failed complaint
  | .aborted out abort => .aborted out abort

end Failure

namespace Inputs

/-- The text of a file. -/
def text (inputs : Inputs) (path : String) : Except Report String :=
  match (inputs.file? path).map Utf8.decode with
  | some (.ok text) => .ok text
  | _ => .error [s!"reading {path}"]

/-- The bytes of a file or of the standard input. -/
def bytes (inputs : Inputs) (path : String) : Except Report (List UInt8) :=
  if Command.isStandardInput path then .ok inputs.input
  else
    match inputs.file? path with
    | some bytes => .ok bytes
    | none => .error [s!"reading {path}"]

/-- A value that was read from a file, if it could be made sense of. -/
def parsed {α : Type} (path : String) : Option α → Except Report α
  | some value => .ok value
  | none => .error [s!"parsing {path}"]

end Inputs

/-- The part of the last name of a path after its last point, if something stands before it. -/
def extension? (path : String) : Option String :=
  let name := (path.toList.reverse.dropWhile (· == '/')).takeWhile (· != '/')
  match name.dropWhile (· != '.') with
  | '.' :: _ :: _ => some (String.ofList (name.takeWhile (· != '.')).reverse)
  | _ => none

namespace Command

def wireFormat (command : Command) (inputs : Inputs) : Except Report WireFormat := do
  let wire ← match command.config with
    | some path => do
        let text ← inputs.text path
        Inputs.parsed path ((Yaml.read? text).bind WireFormat.ofTree?)
    | none => pure {}
  return {
    wire with
    byteOrder := if command.bigEndian then .big else wire.byteOrder
    maxAlign := if command.compactAlign then WireFormat.compactAlign else wire.maxAlign }

/-- The descriptor in a file, valid or not. -/
def readDescriptor (inputs : Inputs) (path : String) : Except Report Descriptor := do
  let text ← inputs.text path
  let tree :=
    if extension? path = some "json" then Tree.readJson? text else Yaml.read? text
  Inputs.parsed path (tree.bind Descriptor.ofTree?)

/-- The valid descriptor in a file. -/
def loadDescriptor (inputs : Inputs) (path : String) : Except Failure Descriptor := do
  let desc ← (readDescriptor inputs path).mapError .report
  desc.validate.mapError (.ofDefect [s!"{desc.typeName} ({path})"])
  return desc

/-- A sample given as JSON. -/
def readSample (inputs : Inputs) (desc : Descriptor) (path : String) : Except Failure Value := do
  let bytes ← (inputs.bytes path).mapError .report
  let json ← (Inputs.parsed path ((Utf8.decode bytes).toOption.bind Json.read?)).mapError .report
  let view ← (View.ofDescriptor desc).mapError .ofViewError
  (view.fromJson json.canonical).mapError .ofViewError

/-! ## Actions -/

def summary (desc : Descriptor) : List String :=
  [s!"  streams: {desc.program.length}",
    "  keys: [" ++ String.intercalate ", " (desc.keys.map Key.name) ++ "]",
    "  metadata: " ++ if desc.markup.isEmpty then "no" else "yes"]

/-- What checking one file prints as good and as bad news. -/
def validateFile (inputs : Inputs) (verbose : Bool) (path : String) :
    Except Abort (List String × List String) :=
  let checked : Except Failure Descriptor := do
    let desc ← (readDescriptor inputs path).mapError .report
    desc.validate.mapError (.ofDefect [])
    return desc
  match checked with
  | .ok desc =>
      .ok (s!"[OK] {path}: {desc.canonicalName}" :: if verbose then summary desc else [], [])
  | .error (.report report) => .ok ([], ["[ERROR] " ++ path ++ ": " ++ report.line])
  | .error (.aborted _ abort) => .error abort

/-- The same for one file after the other, and what cut it off. -/
def validateFiles (inputs : Inputs) (verbose : Bool) :
    List String → List (List String × List String) × Option Abort
  | [] => ([], none)
  | path :: rest =>
      match validateFile inputs verbose path with
      | .ok news =>
          let (others, cut) := validateFiles inputs verbose rest
          (news :: others, cut)
      | .error abort => ([], some abort)

def validate (inputs : Inputs) (files : List String) (verbose : Bool) : Outcome :=
  let (news, cut) := validateFiles inputs verbose files
  let bad := news.flatMap (·.2)
  let out := Report.lines (news.flatMap (·.1))
  let ending : Outcome :=
    match cut with
    | some abort => .aborted out abort
    | none =>
        if bad.isEmpty then .printed out
        else
          let failure :=
            Outcome.failed [s!"{bad.length} of {files.length} descriptors failed validation"]
          { failure with out }
  { ending with err := Report.clip (Report.lines bad) ++ ending.err }

def flagNames (flags : Flags) : List String :=
  (if flags.contains .variableSize then ["NO_OPTIMIZE"] else []) ++
    if flags.contains .fixedKey then ["FIXED_KEY"] else []

/-- A key in a column of 16 characters, where it is and what it is. -/
def keyLine (key : Key) (insn : Instruction) : String :=
  let gap := String.ofList (List.replicate (16 - key.name.length) ' ')
  "  " ++ key.name ++ gap ++ " @" ++ Numeral.decimal 4 key.index.toNat ++ "  " ++ insn.text

def heading (desc : Descriptor) : List String :=
  [s!"type: {desc.canonicalName}", s!"host layout: size {desc.size} align {desc.align}",
    "flags: [" ++ String.intercalate ", " (flagNames desc.flags) ++ "]"]

def sizeLine : Option Nat → String
  | some size => s!"wire size: {size} bytes (fixed)"
  | none => "wire size: variable"

def keySizeLine : Option Nat → String
  | some size => s!"key size: at most {size} bytes"
  | none => "key size: unbounded"

/-- Keys, streams and description. -/
def details (desc : Descriptor) (insns : List Instruction) : List String :=
  ["", "keys:"] ++ (desc.keys.zip insns).map (fun (key, insn) => keyLine key insn) ++
    ["", desc.program.listing,
      if desc.markup.isEmpty then "metadata: none" else "metadata:\n" ++ desc.markup]

def describe (wire : WireFormat) (inputs : Inputs) (file : String) : Except Failure Outcome := do
  let desc ← loadDescriptor inputs file
  let head := heading desc
  let size ← (desc.fixedSize? wire).mapError (.aborted (Report.lines head))
  let head := head ++ [sizeLine size]
  let keySize ← desc.maxKeySize?.mapError (.aborted (Report.lines head))
  let insns ← desc.keyInstructions.mapError (.ofDefect [])
  return .printed (Report.lines (head ++ [keySizeLine keySize] ++ details desc insns))

def encode (wire : WireFormat) (inputs : Inputs) (file sample : String) (output : Option String)
    (payload : Bool) : Except Failure Outcome := do
  let desc ← loadDescriptor inputs file
  let value ← readSample inputs desc sample
  let encoded :=
    if payload then wire.serializePayload desc value else wire.serialize desc value
  let bytes ← encoded.mapError .ofCodecError
  match output with
  | some path =>
      return {
        out := s!"[OK] {bytes.length} bytes written to: {path}\n"
        saved := some (path, bytes) }
  | none => return .printed (Hex.write bytes ++ "\n")

/-- Bytes spelled as hexadecimal text. -/
def ofHex (raw : List UInt8) : Except Report (List UInt8) :=
  match Utf8.decode raw with
  | .ok text => (Hex.read text).mapError fun fault => [fault.message]
  | .error fault => .error ["hex input is not text", fault.message]

def decode (wire : WireFormat) (inputs : Inputs) (file input : String) (hex payload : Bool) :
    Except Failure Outcome := do
  let desc ← loadDescriptor inputs file
  let raw ← (inputs.bytes input).mapError .report
  let bytes ← if hex then (ofHex raw).mapError .report else pure raw
  let decoded :=
    if payload then wire.deserializePayload desc bytes else wire.deserialize desc bytes
  let value ← decoded.mapError .ofCodecError
  let view ← (View.ofDescriptor desc).mapError .ofViewError
  let json ← (view.toJson value).mapError .ofViewError
  return .printed (json.canonical.pretty ++ "\n")

/-- The key and its hash, whatever the wire format. -/
def key (inputs : Inputs) (file sample : String) : Except Failure Outcome := do
  let desc ← loadDescriptor inputs file
  let value ← readSample inputs desc sample
  let key ← (WireFormat.extractKey {} desc value).mapError .ofCodecError
  let hash ← (desc.keyHashOf value).mapError .ofCodecError
  return .printed (Report.lines ["key:      " ++ Hex.write key, "key hash: " ++ Hex.write hash])

/-- The wire format is read first, also where the action has no use for it. -/
def attempt (command : Command) (inputs : Inputs) : Except Failure Outcome := do
  let wire ← (command.wireFormat inputs).mapError .report
  match command.action with
  | .validate files verbose => return validate inputs files verbose
  | .describe file => describe wire inputs file
  | .encode file sample output payload => encode wire inputs file sample output payload
  | .decode file input hex payload => decode wire inputs file input hex payload
  | .key file sample => key inputs file sample

def run (command : Command) (inputs : Inputs) : Outcome :=
  match command.attempt inputs with
  | .ok outcome => outcome
  | .error failure => failure.outcome

end Command

def Invocation.outcome (invocation : Invocation) (inputs : Inputs) : Outcome :=
  match invocation with
  | .command asked => asked.run inputs
  | .version => .printed (Help.version ++ "\n")
  | .help topic => .printed (Help.text topic)
  | .misuse => .misused

end TopicCodec
