/-!
# Lines and columns

A text as a list of characters that know their place. Carriage returns, with or without a line
feed, and next-line characters end a line as a line feed does and are read as one; the line and
paragraph separators end a line too and stay what they are.
-/
namespace TopicCodec.Yaml

/-- A character and where it stands. -/
structure Spot where
  char : Char
  line : Nat
  column : Nat
  /-- Characters before it. -/
  index : Nat

def isBreak (c : Char) : Bool := c == '\n' || c == '\u2028' || c == '\u2029'

def isBlank (c : Char) : Bool := c == ' ' || c == '\t'

def isSpace (c : Char) : Bool := isBlank c || isBreak c

/-- Characters of names. -/
def isWord (c : Char) : Bool := c.isAlphanum || c == '_' || c == '-'

/-- Characters that a text may hold. -/
def isPrintable (c : Char) : Bool :=
  c == '\t' || c == '\n' || c == '\r' || (' ' ≤ c && c ≤ '~') || c == '\u0085' ||
    ('\u00a0' ≤ c && c ≤ '\ufffd') || 0x10000 ≤ c.toNat

/-- The places of characters from a place on, after those in `acc`, last first. -/
def locate (acc : List Spot) (line column index : Nat) : List Char → List Spot
  | [] => acc.reverse
  | '\r' :: '\n' :: rest =>
      locate (⟨'\n', line, column, index⟩ :: acc) (line + 1) 0 (index + 2) rest
  | c :: rest =>
      let c := if c == '\r' || c == '\u0085' then '\n' else c
      let spot : Spot := ⟨c, line, column, index⟩
      if isBreak c then locate (spot :: acc) (line + 1) 0 (index + 1) rest
      else locate (spot :: acc) line (column + 1) (index + 1) rest

/-- The characters of a text with their places, none if one of them is not allowed. -/
def spots? (text : String) : Option (List Spot) :=
  let chars := text.toList
  if chars.all isPrintable then some (locate [] 0 0 0 chars) else none

/-- A blank, a line break or the end comes next. -/
def atGap : List Spot → Bool
  | [] => true
  | s :: _ => isSpace s.char

/-- Three times `mark` at the start of a line and a gap come next. -/
def atMarks (mark : Char) : List Spot → Bool
  | a :: b :: c :: rest =>
      a.column == 0 && a.char == mark && b.char == mark && c.char == mark && atGap rest
  | _ => false

/-- A mark that starts or ends a document comes next. -/
def atMarker (input : List Spot) : Bool := atMarks '-' input || atMarks '.' input

/-- The characters up to the first that is not in a class, and the rest. -/
def span (inClass : Char → Bool) (input : List Spot) : List Char × List Spot :=
  ((input.takeWhile (inClass ·.char)).map (·.char), input.dropWhile (inClass ·.char))

end TopicCodec.Yaml
