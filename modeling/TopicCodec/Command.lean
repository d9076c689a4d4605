/-!
# Command lines

A command line is an action with its operands and options, and options that hold for every
action, which may stand before or after the name of the action. An option stands at most once
on either side; the one after the name counts. `--` makes operands of all that follows. A
command line may also ask for help or for the version, and does so as soon as that is read.
-/
namespace TopicCodec

inductive Action where
  | validate (files : List String) (verbose : Bool)
  | describe (file : String)
  | encode (file sample : String) (output : Option String) (payload : Bool)
  | decode (file input : String) (hex payload : Bool)
  | key (file sample : String)
  deriving DecidableEq, Repr

structure Command where
  config : Option String
  bigEndian : Bool
  compactAlign : Bool
  action : Action
  deriving DecidableEq, Repr

/-- What a command line asks for. -/
inductive Invocation where
  | command (command : Command)
  | version
  /-- Help on one action, or on all if none is named. -/
  | help (topic : Option String)
  | misuse
  deriving DecidableEq, Repr

namespace Command

/-! ## Options -/

/-- Why a command line is not read to its end. -/
inductive Stop where
  | misuse
  | help
  | version

/-- An option by its names. -/
structure Switch where
  name : String
  letter : Option Char := none
  takesValue : Bool := false
  /-- The value names a file and is not empty. -/
  namesFile : Bool := false
  /-- Nothing after it is read. -/
  stop : Option Stop := none

/-- Options given so far, in order; those without a value have an empty one. -/
abbrev Given := List (String × String)

/-- Adds an option, unless it is there already or its value is not fit. -/
def give (switch : Switch) (value : String) (given : Given) : Except Stop Given :=
  match switch.stop with
  | some stop => .error stop
  | none =>
      if given.any (·.1 == switch.name) || (switch.namesFile && value.isEmpty) then .error .misuse
      else .ok (given ++ [(switch.name, value)])

/-- An option that still lacks its value. -/
structure Pending where
  given : Given
  switch : Option Switch

/-- Reads `--name` or `--name=value`. -/
def long (known : List Switch) (given : Given) (body : List Char) : Except Stop Pending := do
  let name := String.ofList (body.takeWhile (· != '='))
  match known.find? (·.name == name), body.dropWhile (· != '=') with
  | none, _ => .error .misuse
  | some switch, _ :: value =>
      if switch.takesValue then return ⟨← give switch (String.ofList value) given, none⟩
      else .error .misuse
  | some switch, [] =>
      if switch.takesValue then return ⟨given, some switch⟩
      else return ⟨← give switch "" given, none⟩

/-- Reads the letters of a bundle; the value of an option may follow its letter. -/
def short (known : List Switch) (given : Given) : List Char → Except Stop Pending
  | [] => .ok ⟨given, none⟩
  | letter :: rest =>
      match known.find? (·.letter == some letter) with
      | none => .error .misuse
      | some switch =>
          if switch.takesValue then
            match rest with
            | [] => .ok ⟨given, some switch⟩
            | '=' :: value => (give switch (String.ofList value) given).map (⟨·, none⟩)
            | value => (give switch (String.ofList value) given).map (⟨·, none⟩)
          else
            match give switch "" given with
            | .ok given => short known given rest
            | .error stop => .error stop

/-- Not an option; a single dash is an operand. -/
def isOperand (arg : String) : Bool :=
  match arg.toList with
  | '-' :: _ :: _ => false
  | _ => true

/-- One argument that is an option. -/
def option (known : List Switch) (given : Given) (arg : String) : Except Stop Pending :=
  match arg.toList with
  | '-' :: '-' :: body => long known given body
  | '-' :: letters => short known given letters
  | _ => .error .misuse

/-! ## Actions -/

/-- Options and operands of an action. -/
structure Form where
  options : List Switch
  /-- Greatest number of operands. -/
  most : Option Nat

/-- Adds an operand, which is not empty, to as many as the action takes. -/
def Form.take (form : Form) (operands : List String) (arg : String) : Except Stop (List String) :=
  if arg.isEmpty || form.most.any (· ≤ operands.length) then .error .misuse
  else .ok (operands ++ [arg])

/-- Options of every action. -/
def shared : List Switch :=
  [{ name := "config", takesValue := true, namesFile := true }, { name := "big-endian" },
    { name := "xcdr2" }, { name := "log-level", takesValue := true },
    { name := "help", letter := some 'h', stop := some .help }]

/-- An option that stands only before the name of an action. -/
def versionSwitch : Switch := { name := "version", letter := some 'V', stop := some .version }

/-- The form of an action, none if there is no such action. -/
def form? : String → Option Form
  | "validate" => some ⟨{ name := "verbose", letter := some 'v' } :: shared, none⟩
  | "describe" => some ⟨shared, some 1⟩
  | "encode" =>
      some ⟨{ name := "output", letter := some 'o', takesValue := true, namesFile := true } ::
        { name := "payload" } :: shared, some 2⟩
  | "decode" => some ⟨{ name := "hex" } :: { name := "payload" } :: shared, some 2⟩
  | "key" => some ⟨shared, some 2⟩
  | _ => none

/-- Reads options up to the first operand. -/
def scanHead (known : List Switch) (given : Given) :
    List String → Except Stop (Given × List String)
  | [] => .ok (given, [])
  | arg :: rest =>
      if isOperand arg then .ok (given, arg :: rest)
      else
        match option known given arg, rest with
        | .error stop, _ => .error stop
        | .ok ⟨given, none⟩, rest => scanHead known given rest
        | .ok ⟨_, some _⟩, [] => .error .misuse
        | .ok ⟨given, some switch⟩, value :: rest =>
            if isOperand value then
              match give switch value given with
              | .ok given => scanHead known given rest
              | .error stop => .error stop
            else .error .misuse

/-- Reads options and operands to the end. -/
def scan (form : Form) (given : Given) (operands : List String) :
    List String → Except Stop (Given × List String)
  | [] => .ok (given, operands)
  | arg :: rest =>
      if isOperand arg then
        match form.take operands arg with
        | .ok operands => scan form given operands rest
        | .error stop => .error stop
      else if arg == "--" then
        (rest.foldlM form.take operands).map (given, ·)
      else
        match option form.options given arg, rest with
        | .error stop, _ => .error stop
        | .ok ⟨given, none⟩, rest => scan form given operands rest
        | .ok ⟨_, some _⟩, [] => .error .misuse
        | .ok ⟨given, some switch⟩, value :: rest =>
            if isOperand value then
              match give switch value given with
              | .ok given => scan form given operands rest
              | .error stop => .error stop
            else .error .misuse

def has (given : Given) (name : String) : Bool := given.any (·.1 == name)

def action? (name : String) (given : Given) (operands : List String) : Option Action :=
  match name, operands with
  | "validate", file :: files => some (.validate (file :: files) (has given "verbose"))
  | "describe", [file] => some (.describe file)
  | "encode", [file, sample] =>
      some (.encode file sample (given.lookup "output") (has given "payload"))
  | "decode", [file, input] => some (.decode file input (has given "hex") (has given "payload"))
  | "key", [file, sample] => some (.key file sample)
  | _, _ => none

end Command

namespace Invocation

open Command

def ofStop (topic : Option String) : Stop → Invocation
  | .misuse => misuse
  | .help => help topic
  | .version => version

/-- What is asked for after the name of an action and the options before it. -/
def ofAction (before : Given) (name : String) (args : List String) : Invocation :=
  match form? name with
  | none => misuse
  | some form =>
      match scan form [] [] args with
      | .error stop => ofStop (some name) stop
      | .ok (after, operands) =>
          match action? name after operands with
          | none => misuse
          | some action =>
              command {
                config := (after.lookup "config").or (before.lookup "config")
                bigEndian := has before "big-endian" || has after "big-endian"
                compactAlign := has before "xcdr2" || has after "xcdr2"
                action }

/-- What arguments ask for. -/
def ofArgs (args : List String) : Invocation :=
  match scanHead (versionSwitch :: shared) [] args with
  | .error stop => ofStop none stop
  | .ok (_, []) => misuse
  | .ok (_, ["help"]) => help none
  | .ok (_, ["help", topic]) =>
      if topic == "help" || (form? topic).isSome then help (some topic) else misuse
  | .ok (before, name :: args) => ofAction before name args

end Invocation

namespace Command

/-! ## Files -/

/-- A single dash, also as a directory, stands for the standard input where a sample or encoded
bytes are read. -/
def isStandardInput (path : String) : Bool :=
  match path.splitOn "/" with
  | name :: rest => name == "-" && rest.all fun part => part == "" || part == "."
  | [] => false

/-- Files that a command reads. -/
def files (command : Command) : List String :=
  command.config.toList ++
    match command.action with
    | .validate files _ => files
    | .describe file => [file]
    | .encode file sample _ _ => [file, sample]
    | .decode file input _ _ => [file, input]
    | .key file sample => [file, sample]

def readsInput (command : Command) : Bool :=
  match command.action with
  | .encode _ sample _ _ => isStandardInput sample
  | .decode _ input _ _ => isStandardInput input
  | .key _ sample => isStandardInput sample
  | _ => false

end Command
end TopicCodec
