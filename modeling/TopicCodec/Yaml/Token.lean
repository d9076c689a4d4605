import TopicCodec.Text.Utf8
import TopicCodec.Yaml.Scalar

/-!
# YAML tokens

Block collections have no marks of their own: columns open and close them, and a colon makes a key
of what stands before it. So a scan keeps the columns of the open block collections and, for every
open flow collection, the place where a key may have started. A key ends on the line it starts on,
at most 1024 characters after its start.
-/
namespace TopicCodec.Yaml

inductive Token where
  | version (major minor : Nat)
  /-- A handle of tags and what it stands for. -/
  | handle (name meaning : String)
  | documentStart
  | documentEnd
  | blockSequence
  | blockMapping
  | blockEnd
  | flowSequence
  | flowSequenceEnd
  | flowMapping
  | flowMappingEnd
  | blockEntry
  | flowEntry
  | key
  | value
  | alias (name : String)
  | anchor (name : String)
  | tag (handle suffix : String)
  | scalar (style : Style) (text : String)
  deriving DecidableEq, Repr

/-! ## Names and tags -/

/-- The name of an anchor and the input after it. -/
def anchorName? (input : List Spot) : Option (String × List Spot) :=
  let (name, rest) := span isWord input
  let ends := match rest with
    | [] => true
    | s :: _ => isSpace s.char || "?:,]\x7d%@`".contains s.char
  if name.isEmpty || !ends then none else some (String.ofList name, rest)

/-- Characters of a tag; a few more are allowed between angle brackets. -/
def isTagChar (bracketed : Bool) (c : Char) : Bool :=
  isWord c || ";/?:@&=+$.%!~*'()".contains c || (bracketed && ",[]".contains c)

/-- The bytes that a tag spells, in which a percent sign and two digits give one byte. -/
def tagBytes (acc : List UInt8) : List Char → Option (List UInt8)
  | [] => some acc.reverse
  | '%' :: high :: low :: rest =>
      match Numeral.digitsFrom 16 0 [high, low] with
      | some n => tagBytes (UInt8.ofNat n :: acc) rest
      | none => none
  | '%' :: _ => none
  | c :: rest => tagBytes (UInt8.ofNat c.toNat :: acc) rest

/-- The part of a tag that starts here, which may be empty. -/
def tagText? (bracketed : Bool) (input : List Spot) : Option (String × List Spot) :=
  let (chars, rest) := span (isTagChar bracketed) input
  match (tagBytes [] chars).map Utf8.decode with
  | some (.ok text) => some (text, rest)
  | _ => none

/-- A tag after its exclamation mark. -/
def tag? (input : List Spot) : Option (Token × List Spot) :=
  match input with
  | s :: rest =>
      if s.char == '<' then
        match tagText? true rest with
        | some (text, close :: rest) =>
            if text.isEmpty || close.char != '>' then none else some (.tag "" text, rest)
        | _ => none
      else
        let (name, after) := span isWord input
        match after with
        | mark :: rest =>
            if mark.char == '!' then
              match tagText? false rest with
              | some (text, rest) =>
                  if text.isEmpty then none
                  else some (.tag ("!" ++ String.ofList name ++ "!") text, rest)
              | none => none
            else
              (tagText? false input).map fun (text, rest) =>
                (if text.isEmpty then .tag "" "!" else .tag "!" text, rest)
        | [] => some (if name.isEmpty then .tag "" "!" else .tag "!" (String.ofList name), [])
  | [] => some (.tag "" "!", [])

/-! ## Directives -/

/-- A number of a version and the input after it. -/
def versionNumber? (input : List Spot) : Option (Nat × List Spot) :=
  let (digits, rest) := span Char.isDigit input
  if digits.length ≤ 9 then (Numeral.ofDigits? 10 digits).map (·, rest) else none

def version? (input : List Spot) : Option (Token × List Spot) := do
  let (major, rest) ← versionNumber? (span isBlank input).2
  match rest with
  | s :: rest =>
      if s.char == '.' then
        let (minor, rest) ← versionNumber? rest
        return (.version major minor, rest)
      else none
  | [] => none

/-- The handle that a directive declares, with its exclamation marks. -/
def declaredHandle? (input : List Spot) : Option (String × List Spot) :=
  match input with
  | s :: rest =>
      let (name, rest) := span isWord rest
      let closed := match rest with
        | mark :: _ => mark.char == '!'
        | [] => false
      if s.char != '!' then none
      else if closed then some ("!" ++ String.ofList name ++ "!", rest.drop 1)
      else if name.isEmpty then some ("!", rest)
      else none
  | [] => none

def handle? (input : List Spot) : Option (Token × List Spot) := do
  let (name, rest) ← declaredHandle? (span isBlank input).2
  let (blanks, rest) := span isBlank rest
  let (meaning, rest) ← tagText? true rest
  if blanks.isEmpty || meaning.isEmpty || !atGap rest then none
  else return (.handle name meaning, rest)

/-- A directive after its percent sign, to the end of its line. -/
def directive? (input : List Spot) : Option (Token × List Spot) := do
  let (name, rest) := span isWord input
  if !atGap rest then none
  else
    let (token, rest) ← match String.ofList name with
      | "YAML" => version? rest
      | "TAG" => handle? rest
      | _ => none
    return (token, ← nextLine? false rest)

/-! ## Scanning -/

/-- A place where a key may have started. -/
structure Candidate where
  spot : Spot
  /-- Tokens before it. -/
  number : Nat
  /-- Nothing else than a key can stand here. -/
  required : Bool

structure Scan where
  /-- Tokens so far, last first. -/
  tokens : List Token := []
  count : Nat := 0
  /-- Columns of the open block collections, innermost first. -/
  columns : List Nat := []
  candidate : Option Candidate := none
  /-- Candidates outside the open flow collections, innermost first. -/
  outer : List (Option Candidate) := []
  /-- A key may start here. -/
  keyAllowed : Bool := true

namespace Scan

/-- A flow collection is open. -/
def inFlow (scan : Scan) : Bool := !scan.outer.isEmpty

def emit (scan : Scan) (token : Token) : Scan :=
  { scan with tokens := token :: scan.tokens, count := scan.count + 1 }

/-- Puts a token in front of all but the first `number` tokens. -/
def insert (scan : Scan) (number : Nat) (token : Token) : Scan :=
  let later := scan.count - number
  { scan with
    tokens := scan.tokens.take later ++ token :: scan.tokens.drop later
    count := scan.count + 1 }

/-- Greatest distance from the start of a key to its colon. -/
def maxKeyLength : Nat := 1024

/-- Gives up a candidate that is too far back. -/
def settle? (scan : Scan) (spot : Spot) : Option Scan :=
  match scan.candidate with
  | some key =>
      if key.spot.line < spot.line || key.spot.index + maxKeyLength < spot.index then
        if key.required then none else some { scan with candidate := none }
      else some scan
  | none => some scan

/-- Gives up the candidate. -/
def drop? (scan : Scan) : Option Scan :=
  match scan.candidate with
  | some key => if key.required then none else some { scan with candidate := none }
  | none => some scan

/-- Makes a candidate of what starts here, where a key may start. -/
def save? (scan : Scan) (spot : Spot) : Option Scan :=
  if scan.keyAllowed then
    scan.drop?.map fun scan =>
      { scan with
        candidate := some {
          spot
          number := scan.count
          required := !scan.inFlow && scan.columns.head? == some spot.column } }
  else some scan

/-- Closes the block collections further right than a column, or all of them. -/
def close (scan : Scan) (column : Option Nat) : Scan :=
  if scan.inFlow then scan
  else
    let isClosed (opened : Nat) : Bool := column.all (· < opened)
    let closed := scan.columns.takeWhile isClosed
    { scan with
      tokens := List.replicate closed.length Token.blockEnd ++ scan.tokens
      count := scan.count + closed.length
      columns := scan.columns.dropWhile isClosed }

/-- Opens a block collection at a column, unless the innermost one is at least as far right. -/
def openAt (scan : Scan) (column number : Nat) (token : Token) : Scan :=
  if scan.inFlow || scan.columns.head?.any (column ≤ ·) then scan
  else { scan.insert number token with columns := column :: scan.columns }

/-- Passes over blanks, line breaks and comments to the next token; also says whether a key may
start there. In a block, a line break allows one, and where one may start a tab is no blank. -/
def skip (flow allowed comment : Bool) : List Spot → Bool × List Spot
  | [] => (allowed, [])
  | s :: rest =>
      if isBreak s.char then skip flow (allowed || !flow) false rest
      else if comment || s.char == '#' then skip flow allowed true rest
      else if s.char == ' ' || (s.char == '\t' && (flow || !allowed)) then
        skip flow allowed false rest
      else if s.char == '\ufeff' && s.column == 0 then skip flow allowed false rest
      else (allowed, s :: rest)

/-! ### Tokens by their first character -/

/-- A mark of a document or a directive, which ends everything that is open. -/
def boundary? (scan : Scan) (token : Token) : Option Scan :=
  (scan.close none).drop?.map fun scan => { scan.emit token with keyAllowed := false }

def openFlow? (scan : Scan) (spot : Spot) (token : Token) : Option Scan :=
  (scan.save? spot).map fun scan =>
    { scan.emit token with
      candidate := none
      outer := scan.candidate :: scan.outer
      keyAllowed := true }

def closeFlow? (scan : Scan) (token : Token) : Option Scan :=
  scan.drop?.map fun scan =>
    let scan := { scan.emit token with keyAllowed := false }
    match scan.outer with
    | candidate :: outer => { scan with candidate, outer }
    | [] => scan

def flowEntry? (scan : Scan) : Option Scan :=
  scan.drop?.map fun scan => { scan.emit .flowEntry with keyAllowed := true }

def blockEntry? (scan : Scan) (spot : Spot) : Option Scan :=
  if !scan.inFlow && !scan.keyAllowed then none
  else
    (scan.openAt spot.column scan.count .blockSequence).drop?.map fun scan =>
      { scan.emit .blockEntry with keyAllowed := true }

/-- A question mark before a key. -/
def key? (scan : Scan) (spot : Spot) : Option Scan :=
  if !scan.inFlow && !scan.keyAllowed then none
  else
    (scan.openAt spot.column scan.count .blockMapping).drop?.map fun scan =>
      { scan.emit .key with keyAllowed := !scan.inFlow }

/-- A colon after a key. -/
def value? (scan : Scan) (spot : Spot) : Option Scan :=
  match scan.candidate with
  | some key =>
      let scan := scan.insert key.number .key
      let scan := scan.openAt key.spot.column key.number .blockMapping
      some { scan.emit .value with candidate := none, keyAllowed := false }
  | none =>
      if !scan.inFlow && !scan.keyAllowed then none
      else
        let scan := scan.openAt spot.column scan.count .blockMapping
        some { scan.emit .value with keyAllowed := !scan.inFlow }

/-- A token that may be or start a key. -/
def content? (scan : Scan) (spot : Spot) (token : Token) (keyAllowed : Bool) : Option Scan :=
  (scan.save? spot).map fun scan => { scan.emit token with keyAllowed }

def scalar? (scan : Scan) (spot : Spot) (style : Style) (reading : Option Reading) :
    Option (Scan × List Spot) := do
  let reading ← reading
  let scan ← scan.content? spot (.scalar style (String.ofList reading.text)) reading.crossed
  return (scan, reading.rest)

/-- A block scalar, which is no key. -/
def block? (scan : Scan) (folded : Bool) (rest : List Spot) : Option (Scan × List Spot) := do
  let reading ← blockScalar folded scan.columns.head? rest
  let style := if folded then Style.folded else .literal
  let scan ← scan.drop?
  let scan := scan.emit (.scalar style (String.ofList reading.text))
  return ({ scan with keyAllowed := true }, reading.rest)

/-- A tag has to be followed by a gap, or in a flow collection by a comma. -/
def endsTag (scan : Scan) : List Spot → Bool
  | [] => true
  | s :: _ => isSpace s.char || (scan.inFlow && s.char == ',')

/-- The token that starts at `spot`, which `rest` follows. -/
def token? (scan : Scan) (spot : Spot) (rest : List Spot) : Option (Scan × List Spot) := do
  let c := spot.char
  if c == '%' && spot.column == 0 then
    let (token, rest) ← directive? rest
    return (← scan.boundary? token, rest)
  else if atMarks '-' (spot :: rest) then return (← scan.boundary? .documentStart, rest.drop 2)
  else if atMarks '.' (spot :: rest) then return (← scan.boundary? .documentEnd, rest.drop 2)
  else if c == '[' then return (← scan.openFlow? spot .flowSequence, rest)
  else if c == '\x7b' then return (← scan.openFlow? spot .flowMapping, rest)
  else if c == ']' then return (← scan.closeFlow? .flowSequenceEnd, rest)
  else if c == '\x7d' then return (← scan.closeFlow? .flowMappingEnd, rest)
  else if c == ',' then return (← scan.flowEntry?, rest)
  else if c == '-' && atGap rest then return (← scan.blockEntry? spot, rest)
  else if c == '?' && (scan.inFlow || atGap rest) then return (← scan.key? spot, rest)
  else if c == ':' && (scan.inFlow || atGap rest) then return (← scan.value? spot, rest)
  else if c == '*' then
    let (name, rest) ← anchorName? rest
    return (← scan.content? spot (.alias name) false, rest)
  else if c == '&' then
    let (name, rest) ← anchorName? rest
    return (← scan.content? spot (.anchor name) false, rest)
  else if c == '!' then
    let (token, rest) ← tag? rest
    if scan.endsTag rest then return (← scan.content? spot token false, rest) else none
  else if (c == '|' || c == '>') && !scan.inFlow then scan.block? (c == '>') rest
  else if c == '\'' then scan.scalar? spot .quoted (singleQuoted false .none [] rest)
  else if c == '"' then scan.scalar? spot .quoted (doubleQuoted .none .none [] rest)
  else if startsPlain scan.inFlow (spot :: rest) then
    let floor := match scan.columns with
      | column :: _ => column + 1
      | [] => 0
    scan.scalar? spot .plain (plain scan.inFlow floor .none [] (spot :: rest))
  else none

/-- All tokens of the rest of a text. Every step reads a character at least, which bounds the
fuel. -/
def run : (fuel : Nat) → Scan → List Spot → Option (List Token)
  | 0, _, _ => none
  | fuel + 1, scan, input =>
      let (keyAllowed, input) := skip scan.inFlow scan.keyAllowed false input
      let scan := { scan with keyAllowed }
      match input with
      | [] => (scan.close none).drop?.map (·.tokens.reverse)
      | spot :: rest =>
          match scan.settle? spot with
          | none => none
          | some scan =>
              match (scan.close (some spot.column)).token? spot rest with
              | some (scan, rest) => run fuel scan rest
              | none => none

end Scan

/-- The tokens of a text. -/
def tokens? (text : String) : Option (List Token) :=
  match spots? text with
  | some input => Scan.run (input.length + 1) {} input
  | none => none

end TopicCodec.Yaml
