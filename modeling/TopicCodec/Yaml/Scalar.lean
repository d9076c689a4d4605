import TopicCodec.Text.Numeral
import TopicCodec.Yaml.Text

/-!
# YAML scalars

Plain, single-quoted and double-quoted scalars and block scalars. In the first three a line feed
reads as a blank and blanks around it are dropped; further line breaks stay, and so do the line and
paragraph separators. A block scalar keeps its line breaks, or folds them unless a line is set in.
-/
namespace TopicCodec.Yaml

inductive Style where
  | plain
  | quoted
  | literal
  | folded
  deriving DecidableEq, Repr

/-- A scalar that has been read. -/
structure Reading where
  text : List Char
  /-- Line breaks after the scalar have been read too. -/
  crossed : Bool
  rest : List Spot

/-! ## White space inside scalars -/

/-- White space that has been read and not yet been written. -/
inductive Pause where
  /-- Blanks within a line, last first. -/
  | blanks (chars : List Char)
  /-- A line break, none if it is not to be seen, and those after it, last first. -/
  | broken (first : Option Char) (more : List Char)

namespace Pause

def none : Pause := blanks []

def isNone : Pause → Bool
  | blanks [] => true
  | _ => false

def isBroken : Pause → Bool
  | broken _ _ => true
  | blanks _ => false

/-- The pause after one more blank or line break. -/
def push (pause : Pause) (c : Char) : Pause :=
  match pause, isBreak c with
  | blanks _, true => broken (some c) []
  | broken first more, true => broken first (c :: more)
  | blanks chars, false => blanks (c :: chars)
  | pause, false => pause

/-- The characters that a pause stands for, last first. -/
def chars : Pause → List Char
  | blanks chars => chars
  | broken (some '\n') [] => [' ']
  | broken (some '\n') more => more
  | broken first more => more ++ first.toList

end Pause

/-! ## Quoted scalars -/

/-- The rest of a single-quoted scalar, just after a quote that may end it if `closing`; `acc` holds
the characters read, last first. -/
def singleQuoted (closing : Bool) (pause : Pause) (acc : List Char) : List Spot → Option Reading
  | [] => if closing then some ⟨acc.reverse, false, []⟩ else none
  | s :: rest =>
      if closing then
        if s.char == '\'' then singleQuoted false .none ('\'' :: acc) rest
        else some ⟨acc.reverse, false, s :: rest⟩
      else if s.char == '\'' then singleQuoted true .none (pause.chars ++ acc) rest
      else if isSpace s.char then singleQuoted false (pause.push s.char) acc rest
      else if atMarker (s :: rest) then none
      else singleQuoted false .none (s.char :: (pause.chars ++ acc)) rest

def simpleEscape? : Char → Option Char
  | '0' => some '\x00'
  | 'a' => some '\x07'
  | 'b' => some '\x08'
  | 't' => some '\t'
  | '\t' => some '\t'
  | 'n' => some '\n'
  | 'v' => some '\x0b'
  | 'f' => some '\x0c'
  | 'r' => some '\r'
  | 'e' => some '\x1b'
  | ' ' => some ' '
  | '"' => some '"'
  | '/' => some '/'
  | '\\' => some '\\'
  | 'N' => some '\u0085'
  | '_' => some '\u00a0'
  | 'L' => some '\u2028'
  | 'P' => some '\u2029'
  | _ => none

/-- The number of digits of a character code after this letter. -/
def codeLength? : Char → Option Nat
  | 'x' => some 2
  | 'u' => some 4
  | 'U' => some 8
  | _ => none

/-- What a reader of a double-quoted scalar is in the middle of. -/
inductive Escape where
  | none
  /-- A backslash has been read. -/
  | slash
  /-- A character code lacks some digits. -/
  | code (missing value : Nat)

/-- The rest of a double-quoted scalar; `acc` holds the characters read, last first. -/
def doubleQuoted (escape : Escape) (pause : Pause) (acc : List Char) : List Spot → Option Reading
  | [] => none
  | s :: rest =>
      match escape with
      | .none =>
          if s.char == '"' then some ⟨(pause.chars ++ acc).reverse, false, rest⟩
          else if s.char == '\\' then doubleQuoted .slash .none (pause.chars ++ acc) rest
          else if isSpace s.char then doubleQuoted .none (pause.push s.char) acc rest
          else if atMarker (s :: rest) then none
          else doubleQuoted .none .none (s.char :: (pause.chars ++ acc)) rest
      | .slash =>
          if isBreak s.char then doubleQuoted .none (.broken none []) acc rest
          else
            match codeLength? s.char, simpleEscape? s.char with
            | some missing, _ => doubleQuoted (.code missing 0) .none acc rest
            | none, some c => doubleQuoted .none .none (c :: acc) rest
            | none, none => none
      | .code missing value =>
          match Numeral.digitValue? 16 s.char with
          | none => none
          | some digit =>
              let value := value * 16 + digit
              if 1 < missing then doubleQuoted (.code (missing - 1) value) .none acc rest
              else if value.isValidChar then
                doubleQuoted .none .none (Char.ofNat value :: acc) rest
              else none

/-! ## Plain scalars -/

def isFlowMark (c : Char) : Bool := ",[]\x7b\x7d".contains c

/-- A plain scalar can start here. -/
def startsPlain (flow : Bool) : List Spot → Bool
  | [] => false
  | s :: rest =>
      if s.char == '-' then !atGap rest
      else if s.char == '?' || s.char == ':' then !flow && !atGap rest
      else !(isSpace s.char || isFlowMark s.char || "#&*!|>'\"%@`".contains s.char)

/-- A colon that no plain scalar in a flow collection can hold. -/
def strayColon (flow : Bool) (c : Char) : List Spot → Bool
  | next :: _ => flow && c == ':' && (isFlowMark next.char || next.char == '?')
  | [] => false

/-- A plain scalar ends before this character. -/
def endsPlain (flow : Bool) (c : Char) (rest : List Spot) : Bool :=
  (c == ':' && atGap rest) || (flow && isFlowMark c)

/-- The rest of a plain scalar and the white space after it; `acc` holds the characters read, last
first. Its further lines start at column `floor` or further right, without a tab before that. -/
def plain (flow : Bool) (floor : Nat) (pause : Pause) (acc : List Char) : List Spot → Option Reading
  | [] => some ⟨acc.reverse, pause.isBroken, []⟩
  | s :: rest =>
      if isSpace s.char then
        if pause.isBroken && s.char == '\t' && s.column < floor then none
        else plain flow floor (pause.push s.char) acc rest
      else
        let fresh := !pause.isNone &&
          (atMarker (s :: rest) || s.char == '#' || (!flow && s.column < floor))
        if fresh then some ⟨acc.reverse, pause.isBroken, s :: rest⟩
        else if strayColon flow s.char rest then none
        else if endsPlain flow s.char rest then some ⟨acc.reverse, pause.isBroken, s :: rest⟩
        else plain flow floor .none (s.char :: (pause.chars ++ acc)) rest

/-! ## Block scalars -/

/-- What becomes of the line breaks at the end of a block scalar. -/
inductive Chomping where
  | strip
  | clip
  | keep

/-- The header of a block scalar. -/
structure Header where
  chomping : Chomping := .clip
  /-- How far its lines are set in, if that is given. -/
  increment : Option Nat := none

def chomping? (c : Char) : Option Chomping :=
  if c == '+' then some .keep else if c == '-' then some .strip else none

/-- A digit that says how far lines are set in, if one comes next; it is not zero. -/
def increment? : List Spot → Option (Option Nat × List Spot)
  | [] => some (none, [])
  | s :: rest =>
      match Numeral.digitValue? 10 s.char with
      | some 0 => none
      | some n => some (some n, rest)
      | none => some (none, s :: rest)

/-- The header of a block scalar after its first mark. -/
def header? (input : List Spot) : Option (Header × List Spot) := do
  match input with
  | [] => return ({}, [])
  | s :: rest =>
      match chomping? s.char with
      | some chomping =>
          let (increment, rest) ← increment? rest
          return ({ chomping, increment }, rest)
      | none =>
          match ← increment? (s :: rest) with
          | (some n, t :: rest) =>
              match chomping? t.char with
              | some chomping => return ({ chomping, increment := some n }, rest)
              | none => return ({ increment := some n }, t :: rest)
          | (increment, rest) => return ({ increment }, rest)

/-- The line after this one, if only blanks and a comment are left of it. -/
def nextLine? (comment : Bool) : List Spot → Option (List Spot)
  | [] => some []
  | s :: rest =>
      if isBreak s.char then some rest
      else if comment || s.char == '#' then nextLine? true rest
      else if isBlank s.char then nextLine? false rest
      else none

/-- Passes over the indentation of lines and over empty lines up to column `indent`, or over all
blanks if there is none. Also gives the deepest column met and the line breaks, last first. -/
def leadingBreaks (indent : Option Nat) (deepest : Nat) (breaks : List Char) :
    List Spot → Option (Nat × List Char × List Spot)
  | [] => some (deepest, breaks, [])
  | s :: rest =>
      let outside := indent.all (s.column < ·)
      if outside && s.char == ' ' then leadingBreaks indent deepest breaks rest
      else if outside && s.char == '\t' then none
      else if isBreak s.char then
        leadingBreaks indent (max deepest s.column) (s.char :: breaks) rest
      else some (max deepest s.column, breaks, s :: rest)

/-- A block scalar that is being read. -/
structure Block where
  folded : Bool
  indent : Nat
  chomping : Chomping
  /-- The characters read, last first. -/
  acc : List Char := []
  /-- A line is being read. -/
  inLine : Bool := false
  /-- The last line starts with a blank. -/
  setIn : Bool := false
  /-- The break at the end of the last line. -/
  ending : Option Char := none
  /-- Breaks after it, last first. -/
  breaks : List Char := []

namespace Block

/-- The scalar as it is after a line has started with this character. -/
def startLine (block : Block) (c : Char) : Block :=
  let folds := block.folded && block.ending == some '\n' && !block.setIn && !isBlank c
  let joint :=
    if folds then (if block.breaks.isEmpty then [' '] else block.breaks)
    else block.breaks ++ block.ending.toList
  { block with
    acc := c :: (joint ++ block.acc)
    inLine := true
    setIn := isBlank c
    ending := none
    breaks := [] }

/-- The text once the scalar has ended. -/
def text (block : Block) : List Char :=
  match block.chomping with
  | .strip => block.acc.reverse
  | .clip => (block.ending.toList ++ block.acc).reverse
  | .keep => (block.breaks ++ block.ending.toList ++ block.acc).reverse

/-- Reads the lines of a block scalar. -/
def lines (block : Block) : List Spot → Option Reading
  | [] => some ⟨block.text, true, []⟩
  | s :: rest =>
      if block.inLine then
        if isBreak s.char then
          lines { block with inLine := false, ending := some s.char } rest
        else lines { block with acc := s.char :: block.acc } rest
      else if s.column < block.indent && s.char == ' ' then lines block rest
      else if s.column < block.indent && s.char == '\t' then none
      else if isBreak s.char then lines { block with breaks := s.char :: block.breaks } rest
      else if s.column == block.indent then lines (block.startLine s.char) rest
      else some ⟨block.text, true, s :: rest⟩

end Block

/-- A block scalar after its first mark, inside block collections of which the innermost stands at
column `parent`. -/
def blockScalar (folded : Bool) (parent : Option Nat) (input : List Spot) : Option Reading := do
  let (header, rest) ← header? input
  let rest ← nextLine? false rest
  let given := header.increment.map (parent.getD 0 + ·)
  let (deepest, breaks, rest) ← leadingBreaks given 0 [] rest
  let floor := match parent with
    | some column => column + 1
    | none => 0
  let indent := given.getD (max deepest (max floor 1))
  Block.lines { folded, indent, chomping := header.chomping, breaks } rest

end TopicCodec.Yaml
