import TopicCodec.Report

/-!
# Help

What the tool says about itself: a line on what it does, how it is called, and tables of actions,
operands and options. In a table the explanations stand in one column.
-/
namespace TopicCodec.Help

def toolName : String := "opcdr-inspect"

def version : String := toolName ++ " 0.4.0"

/-- What a table explains, and the explanation. -/
abbrev Row := String × String

/-- Rows with the explanations two blanks behind the longest entry. -/
def table (rows : List Row) : List String :=
  let width := (rows.map (·.1.length)).foldl max 0
  rows.map fun (entry, explanation) =>
    "  " ++ entry ++ String.ofList (List.replicate (width + 2 - entry.length) ' ') ++ explanation

/-- A table under a title, unless it is empty. -/
def titled (title : String) (rows : List Row) : List String :=
  if rows.isEmpty then [] else ["", title ++ ":"] ++ table rows

def config : Row := ("    --config <FILE>", "Wire configuration file (YAML)")

def bigEndian : Row := ("    --big-endian", "Big-endian byte order")

def compactAlign : Row :=
  ("    --xcdr2", "XCDR2 alignment (primitives aligned to at most 4 bytes)")

def logLevel : Row :=
  ("    --log-level <LOG_LEVEL>",
    "Log level (trace, debug, info, warn, error); RUST_LOG overrides [default: warn]")

def help : Row := ("-h, --help", "Print help")

def actions : List Row :=
  [("validate", "Load and validate descriptor files (YAML or JSON)"),
    ("describe", "Disassemble a descriptor and print its metadata"),
    ("encode", "Encode a JSON sample"),
    ("decode", "Decode bytes to a JSON sample"),
    ("key", "Print the serialized key and key hash of a JSON sample"),
    ("help", "Print this message or the help of the given subcommand(s)")]

def descriptor : Row := ("<FILE>", "Descriptor file")

def sample : Row := ("<JSON>", "JSON sample (`-` for stdin)")

/-- How an action is called, and tables of its operands and options. -/
def details : String → String × List Row × List Row
  | "validate" =>
      ("[OPTIONS] <FILE>...", [("<FILE>...", "Descriptor files")],
        [config, ("-v, --verbose", "Show a summary of each valid descriptor"), bigEndian,
          compactAlign, logLevel, help])
  | "describe" =>
      ("[OPTIONS] <FILE>", [descriptor], [config, bigEndian, compactAlign, logLevel, help])
  | "encode" =>
      ("[OPTIONS] <FILE> <JSON>", [descriptor, sample],
        [config, ("-o, --output <FILE>", "Write raw bytes here instead of printing hex"),
          bigEndian, ("    --payload", "Prefix the encapsulation header"), compactAlign, logLevel,
          help])
  | "decode" =>
      ("[OPTIONS] <FILE> <BIN>",
        [descriptor, ("<BIN>", "Encoded bytes (`-` for stdin)")],
        [config, ("    --hex", "Input is hex text rather than raw bytes"), bigEndian,
          ("    --payload", "Input starts with an encapsulation header"), compactAlign, logLevel,
          help])
  | "key" =>
      ("[OPTIONS] <FILE> <JSON>", [descriptor, sample],
        [config, bigEndian, compactAlign, logLevel, help])
  | _ => ("[COMMAND]...", [("[COMMAND]...", "Print help for the subcommand(s)")], [])

/-- The page on the tool as a whole. -/
def overview : String :=
  Report.lines (["Validate, describe and exercise op-stream topic descriptors", "",
    "Usage: " ++ toolName ++ " [OPTIONS] <COMMAND>"] ++
    titled "Commands" actions ++
    titled "Options"
      [config, bigEndian, compactAlign, logLevel, help, ("-V, --version", "Print version")])

/-- The page on one action. -/
def page (name : String) : String :=
  let (usage, operands, options) := details name
  let call := String.intercalate " " ["Usage:", toolName, name, usage]
  Report.lines ([(actions.lookup name).getD "", "", call] ++
    titled "Arguments" operands ++ titled "Options" options)

def text : Option String → String
  | some name => page name
  | none => overview

end TopicCodec.Help
