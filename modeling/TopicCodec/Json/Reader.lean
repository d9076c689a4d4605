import TopicCodec.Json

/-!
# Reading JSON

One value with nothing but blanks around it, no comments and no trailing commas.
`Builder.read?` keeps to this grammar and leaves it to a builder what becomes of
the parts; it goes through a text with a stack of its own, however deep the text
is. `Json.read?` makes JSON values, with arrays and objects at most 127 deep. An
integer numeral that fits 64 bits, signed or unsigned, is an integer; `-0` and
every other numeral is a binary64 number, read through its leading digits that
fit 64 bits, and refused when it is too large to be finite.
-/
namespace TopicCodec.Json.Reader

def isBlank (c : Char) : Bool := c == ' ' || c == '\n' || c == '\r' || c == '\t'

def skipBlanks (input : List Char) : List Char := input.dropWhile isBlank

/-! ## Strings -/

/-- A character of a string body, or a 16-bit unit given by its number. -/
inductive StringUnit where
  | char (value : Char)
  | unit (value : Nat)

def simpleEscape? : Char → Option Char
  | '"' => some '"'
  | '\\' => some '\\'
  | '/' => some '/'
  | 'b' => some '\x08'
  | 'f' => some '\x0c'
  | 'n' => some '\n'
  | 'r' => some '\r'
  | 't' => some '\t'
  | _ => none

/-- The units up to the closing quote and what follows it; `acc` holds those read, last first. -/
def units (acc : List StringUnit) : List Char → Option (List StringUnit × List Char)
  | [] => none
  | '"' :: rest => some (acc.reverse, rest)
  | '\\' :: 'u' :: a :: b :: c :: d :: rest =>
      match Numeral.digitsFrom 16 0 [a, b, c, d] with
      | some n => units (.unit n :: acc) rest
      | none => none
  | '\\' :: e :: rest =>
      match simpleEscape? e with
      | some c => units (.char c :: acc) rest
      | none => none
  | c :: rest => if c.toNat < 0x20 then none else units (.char c :: acc) rest

def isHigh (n : Nat) : Bool := 0xD800 ≤ n && n < 0xDC00

def isLow (n : Nat) : Bool := 0xDC00 ≤ n && n < 0xE000

/-- The characters that units stand for; a surrogate must be one half of a pair. -/
def pairUnits (acc : List Char) : List StringUnit → Option (List Char)
  | [] => some acc.reverse
  | .char c :: rest => pairUnits (c :: acc) rest
  | .unit high :: .unit low :: rest =>
      if isHigh high then
        if isLow low then
          let code := 0x10000 + (high - 0xD800) * 0x400 + (low - 0xDC00)
          pairUnits (Char.ofNat code :: acc) rest
        else none
      else if isLow high then none
      else pairUnits (Char.ofNat high :: acc) (.unit low :: rest)
  | .unit n :: rest =>
      if isHigh n || isLow n then none else pairUnits (Char.ofNat n :: acc) rest

/-- The text that units stand for. -/
def text? (units : List StringUnit) : Option String := (pairUnits [] units).map String.ofList

/-! ## Numbers -/

/-- Significands are kept below this bound. -/
def significandLimit : Nat := UInt64.size

/-- Appends decimal digits to a significand as long as it stays within its bound; also counts the
digits that were appended. -/
def absorb (significand : Nat) : List Char → Nat × Nat
  | [] => (significand, 0)
  | c :: rest =>
      let next := significand * 10 + (c.toNat - '0'.toNat)
      if next < significandLimit then
        let (final, count) := absorb next rest
        (final, count + 1)
      else (significand, 0)

/-- Parts of a numeral as written. -/
structure NumberText where
  negative : Bool
  whole : List Char
  /-- Digits after the point. -/
  fraction : Option (List Char)
  /-- Sign and digits after the exponent mark. -/
  exponent : Option (Bool × List Char)

def takeDigits (input : List Char) : List Char × List Char :=
  (input.takeWhile Char.isDigit, input.dropWhile Char.isDigit)

/-- A nonempty run of digits, without a superfluous leading zero. -/
def wholePart? (input : List Char) : Option (List Char × List Char) :=
  match takeDigits input with
  | ([], _) => none
  | ('0' :: _ :: _, _) => none
  | (digits, rest) => some (digits, rest)

def fractionPart? (input : List Char) : Option (Option (List Char) × List Char) :=
  match input with
  | '.' :: rest =>
      match takeDigits rest with
      | ([], _) => none
      | (digits, rest) => some (some digits, rest)
  | _ => some (none, input)

def exponentPart? (input : List Char) : Option (Option (Bool × List Char) × List Char) :=
  match input with
  | c :: rest =>
      if c == 'e' || c == 'E' then
        let (negative, rest) := match rest with
          | '+' :: rest => (false, rest)
          | '-' :: rest => (true, rest)
          | rest => (false, rest)
        match takeDigits rest with
        | ([], _) => none
        | (digits, rest) => some (some (negative, digits), rest)
      else some (none, input)
  | [] => some (none, [])

def numberText? (input : List Char) : Option (NumberText × List Char) := do
  let (negative, input) := match input with
    | '-' :: rest => (true, rest)
    | rest => (false, rest)
  let (whole, input) ← wholePart? input
  let (fraction, input) ← fractionPart? input
  let (exponent, input) ← exponentPart? input
  return (⟨negative, whole, fraction, exponent⟩, input)

def ofMagnitude (negative : Bool) (magnitude : Nat) : Json :=
  .float (BitVec.ofNat 64 (Ieee.binary64.signed negative magnitude))

/-- The number with this significand and exponent of ten, none if it is too large. -/
def scaled? (negative : Bool) (significand : Nat) (exponent : Int) : Option Json :=
  (Decimal.scale? significand exponent).map (ofMagnitude negative)

namespace NumberText

/-- An exponent numeral past this bound stands for an infinite exponent. -/
def exponentLimit : Nat := 2147483648

/-- The value of a numeral. -/
def value? (text : NumberText) : Option Json :=
  let (front, count) := absorb 0 text.whole
  let dropped := text.whole.length - count
  match text.fraction, text.exponent with
  | none, none =>
      if dropped ≠ 0 then scaled? text.negative front dropped
      else if text.negative then
        if front = 0 ∨ UInt64.size / 2 < front then scaled? true front 0
        else some (.integer (-front))
      else some (.integer front)
  | fraction, exponent =>
      let (significand, places) := absorb front (fraction.getD [])
      let start : Int := (dropped : Int) - places
      match exponent with
      | none => scaled? text.negative significand start
      | some (negative, digits) =>
          let n := (Numeral.digitsFrom 10 0 digits).getD 0
          if n < exponentLimit then
            scaled? text.negative significand (if negative then start - n else start + n)
          else if significand ≠ 0 ∧ ¬negative then none
          else some (ofMagnitude text.negative 0)

end NumberText

/-! ## Values -/

/-- What becomes of the parts of a text. -/
structure Builder (α : Type) where
  null : α
  bool : Bool → α
  number : NumberText → α
  string : List StringUnit → α
  array : List α → α
  object : List (List StringUnit × α) → α

/-- An array or object of which a part has been read, last first. -/
inductive Frame (α : Type) where
  | array (items : List α)
  /-- The member with the name given last is to be read next. -/
  | object (members : List (List StringUnit × α)) (name : List StringUnit)

/-- The name of a member and the colon after it. -/
def memberName? (input : List Char) : Option (List StringUnit × List Char) :=
  match skipBlanks input with
  | '"' :: rest =>
      match units [] rest with
      | some (name, rest) =>
          match skipBlanks rest with
          | ':' :: rest => some (name, rest)
          | _ => none
      | none => none
  | _ => none

namespace Builder

variable {α : Type}

/-- The value that starts here: a whole one, or the first part of one that is to be continued. -/
def start? (builder : Builder α) (input : List Char) :
    Option ((α ⊕ Frame α) × List Char) :=
  match input with
  | 'n' :: 'u' :: 'l' :: 'l' :: rest => some (.inl builder.null, rest)
  | 't' :: 'r' :: 'u' :: 'e' :: rest => some (.inl (builder.bool true), rest)
  | 'f' :: 'a' :: 'l' :: 's' :: 'e' :: rest => some (.inl (builder.bool false), rest)
  | '"' :: rest => (units [] rest).map fun (parts, rest) => (.inl (builder.string parts), rest)
  | '[' :: rest =>
      match skipBlanks rest with
      | ']' :: rest => some (.inl (builder.array []), rest)
      | rest => some (.inr (.array []), rest)
  | '\x7b' :: rest =>
      match skipBlanks rest with
      | '\x7d' :: rest => some (.inl (builder.object []), rest)
      | rest => (memberName? rest).map fun (name, rest) => (.inr (.object [] name), rest)
  | rest => (numberText? rest).map fun (text, rest) => (.inl (builder.number text), rest)

/-- The innermost open value after one of its parts has been read: whole, or to be continued. -/
def extend? (builder : Builder α) (part : α) (frame : Frame α) (input : List Char) :
    Option ((α ⊕ Frame α) × List Char) :=
  match frame, input with
  | .array items, ',' :: rest => some (.inr (.array (part :: items)), rest)
  | .array items, ']' :: rest => some (.inl (builder.array (part :: items).reverse), rest)
  | .object members name, ',' :: rest =>
      (memberName? rest).map fun (next, rest) =>
        (.inr (.object ((name, part) :: members) next), rest)
  | .object members name, '\x7d' :: rest =>
      some (.inl (builder.object ((name, part) :: members).reverse), rest)
  | _, _ => none

/-- A bracket that opens an array or object. -/
def opens : List Char → Bool
  | c :: _ => c == '[' || c == '\x7b'
  | [] => false

/-- Reads on, with a part just read or none, inside the `level` open values of `stack`, innermost
first. The result has the greatest depth met. The fuel bounds the number of steps; two for each
character are enough. -/
def run (builder : Builder α) : (fuel depth level : Nat) → Option α → List (Frame α) →
    List Char → Option (α × Nat × List Char)
  | 0, _, _, _, _, _ => none
  | _ + 1, depth, _, some whole, [], input => some (whole, depth, input)
  | fuel + 1, depth, level, some part, frame :: stack, input =>
      match builder.extend? part frame (skipBlanks input) with
      | some (.inl whole, rest) => run builder fuel depth (level - 1) (some whole) stack rest
      | some (.inr frame, rest) => run builder fuel depth level none (frame :: stack) rest
      | none => none
  | fuel + 1, depth, level, none, stack, input =>
      let input := skipBlanks input
      let depth := if opens input then max depth (level + 1) else depth
      match builder.start? input with
      | some (.inl whole, rest) => run builder fuel depth level (some whole) stack rest
      | some (.inr frame, rest) => run builder fuel depth (level + 1) none (frame :: stack) rest
      | none => none

/-- What becomes of a text, and how deep its arrays and objects are nested. -/
def read? (builder : Builder α) (text : String) : Option (α × Nat) :=
  let input := text.toList
  match run builder (2 * input.length + 2) 0 0 none [] input with
  | some (value, depth, rest) =>
      if (skipBlanks rest).isEmpty then some (value, depth) else none
  | none => none

end Builder

/-- A member whose name and value both are. -/
def member? : List StringUnit × Option Json → Option (String × Json)
  | (name, some value) => (text? name).map (·, value)
  | (_, none) => none

/-- Makes JSON values, none where a numeral or a string has no value. -/
def values : Builder (Option Json) where
  null := some .null
  bool value := some (.bool value)
  number := NumberText.value?
  string parts := (text? parts).map .string
  array items := (items.mapM id).map .array
  object members := (members.mapM member?).map .object

/-- Arrays and objects nest less deep than this. -/
def maxDepth : Nat := 128

end Reader

/-- The value that a text spells, objects as written. -/
def read? (text : String) : Option Json :=
  match Reader.values.read? text with
  | some (value, depth) => if depth < Reader.maxDepth then value else none
  | none => none

end TopicCodec.Json
