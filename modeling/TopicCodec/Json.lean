import TopicCodec.Decimal
import TopicCodec.Text.Numeral

/-!
# JSON values and their text

A number is an integer that fits 64 bits, signed or unsigned, or a binary64
number by its bits. An object keeps its members as written; `Json.canonical`
sorts them by name and lets the last of equal names win. `compact` and `pretty`
write a value.
-/
namespace TopicCodec

inductive Json where
  | null
  | bool (value : Bool)
  | integer (value : Int)
  /-- A binary64 number by its bits. -/
  | float (bits : BitVec 64)
  | string (value : String)
  | array (items : List Json)
  | object (members : List (String × Json))

namespace Json

/-! ## Canonical form -/

/-- The members with `name` bound to `value`, in ascending order of names. -/
def insertMember (name : String) (value : Json) : List (String × Json) → List (String × Json)
  | [] => [(name, value)]
  | (other, kept) :: rest =>
      if name = other then (name, value) :: rest
      else if name < other then (name, value) :: (other, kept) :: rest
      else (other, kept) :: insertMember name value rest

/-- The members in ascending order of names, the last of equal names only. -/
def sortMembers (members : List (String × Json)) : List (String × Json) :=
  members.foldl (fun sorted (name, value) => insertMember name value sorted) []

mutual

/-- Every object with its members sorted and without duplicate names. -/
def canonical : Json → Json
  | array items => array (canonicalItems items)
  | object members => object (sortMembers (canonicalMembers members))
  | value => value

def canonicalItems : List Json → List Json
  | [] => []
  | item :: rest => canonical item :: canonicalItems rest

def canonicalMembers : List (String × Json) → List (String × Json)
  | [] => []
  | (name, value) :: rest => (name, canonical value) :: canonicalMembers rest

end

/-- The member of an object with this name, the last one if there are several. -/
def get? (name : String) : Json → Option Json
  | object members => (members.reverse.find? (·.1 == name)).map (·.2)
  | _ => none

/-! ## Text -/

/-- Numbers of at most sixteen integral digits, or five zeros after the point, are positional. -/
def floatLayout : Decimal.Layout := ⟨-5, 15⟩

/-- Text of a number; infinities and NaNs have none in JSON and become `null`. -/
def floatText (bits : BitVec 64) : String :=
  if Ieee.binary64.isFinite (Ieee.binary64.magnitude bits.toNat) then
    floatLayout.write Ieee.binary64 bits.toNat
  else "null"

def escape (c : Char) : List Char :=
  match c with
  | '"' => ['\\', '"']
  | '\\' => ['\\', '\\']
  | '\x08' => ['\\', 'b']
  | '\x0c' => ['\\', 'f']
  | '\n' => ['\\', 'n']
  | '\r' => ['\\', 'r']
  | '\t' => ['\\', 't']
  | c => if c.toNat < 0x20 then ['\\', 'u'] ++ (Numeral.hex 4 c.toNat).toList else [c]

def quote (text : String) : String :=
  "\"" ++ String.ofList (text.toList.flatMap escape) ++ "\""

def leafText : Json → String
  | null => "null"
  | bool true => "true"
  | bool false => "false"
  | integer value => toString value
  | float bits => floatText bits
  | string value => quote value
  | array _ => "[]"
  | object _ => "\x7b\x7d"

mutual

/-- Text without any white space. -/
def compact : Json → String
  | array items => "[" ++ String.intercalate "," (compactItems items) ++ "]"
  | object members => "\x7b" ++ String.intercalate "," (compactMembers members) ++ "\x7d"
  | value => leafText value

def compactItems : List Json → List String
  | [] => []
  | item :: rest => compact item :: compactItems rest

def compactMembers : List (String × Json) → List String
  | [] => []
  | (name, value) :: rest => (quote name ++ ":" ++ compact value) :: compactMembers rest

end

def indentation (depth : Nat) : String := String.ofList (List.replicate (2 * depth) ' ')

/-- Lines between brackets, one level below `depth`. -/
def bracketed (depth : Nat) (opening closing : String) (lines : List String) : String :=
  let indented := lines.map (indentation (depth + 1) ++ ·)
  opening ++ "\n" ++ String.intercalate ",\n" indented ++ "\n" ++ indentation depth ++ closing

mutual

/-- Text with one item a line, nested two blanks a level. -/
def prettyAt (depth : Nat) : Json → String
  | array [] => "[]"
  | array (item :: rest) =>
      bracketed depth "[" "]" (prettyAt (depth + 1) item :: prettyItems (depth + 1) rest)
  | object [] => "\x7b\x7d"
  | object ((name, value) :: rest) =>
      bracketed depth "\x7b" "\x7d"
        ((quote name ++ ": " ++ prettyAt (depth + 1) value) :: prettyMembers (depth + 1) rest)
  | value => leafText value

def prettyItems (depth : Nat) : List Json → List String
  | [] => []
  | item :: rest => prettyAt depth item :: prettyItems depth rest

def prettyMembers (depth : Nat) : List (String × Json) → List String
  | [] => []
  | (name, value) :: rest =>
      (quote name ++ ": " ++ prettyAt depth value) :: prettyMembers depth rest

end

def pretty (value : Json) : String := prettyAt 0 value

end Json
end TopicCodec
