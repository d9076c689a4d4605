import TopicCodec.Text.Numeral

/-!
# XML elements and characters

Only the element structure of a document is kept: local names, attributes without a
prefix, and child elements. The character classes are those of XML 1.0.
-/
namespace TopicCodec.Xml

structure Attribute where
  name : String
  value : String
  deriving DecidableEq, Repr

inductive Element where
  | mk (name : String) (attributes : List Attribute) (children : List Element)

namespace Element

/-- Local name of the element. -/
def name : Element → String
  | mk name _ _ => name

def attributes : Element → List Attribute
  | mk _ attributes _ => attributes

def children : Element → List Element
  | mk _ _ children => children

/-- The value of the attribute with this name and no prefix. -/
def attribute? (element : Element) (name : String) : Option String :=
  (element.attributes.find? (·.name == name)).map Attribute.value

end Element

/-! ## Character classes -/

def isBlank (c : Char) : Bool := c == ' ' || c == '\t' || c == '\n' || c == '\r'

/-- Characters a document may hold. -/
def isChar (c : Char) : Bool :=
  if c.toNat < 0x20 then c == '\t' || c == '\n' || c == '\r'
  else c.toNat != 0xFFFE && c.toNat != 0xFFFF

def inRanges (ranges : List (Nat × Nat)) (n : Nat) : Bool :=
  ranges.any fun (low, high) => low ≤ n && n ≤ high

/-- Ranges of the characters beyond ASCII that may start a name. -/
def nameStartRanges : List (Nat × Nat) :=
  [(0xC0, 0xD6), (0xD8, 0xF6), (0xF8, 0x2FF), (0x370, 0x37D), (0x37F, 0x1FFF), (0x200C, 0x200D),
    (0x2070, 0x218F), (0x2C00, 0x2FEF), (0x3001, 0xD7FF), (0xF900, 0xFDCF), (0xFDF0, 0xFFFD),
    (0x10000, 0xEFFFF)]

/-- Ranges of the further characters beyond ASCII that may continue a name. -/
def nameRanges : List (Nat × Nat) :=
  [(0xB7, 0xB7), (0x300, 0x36F), (0x203F, 0x2040)]

def isNameStart (c : Char) : Bool :=
  c.isAlpha || c == ':' || c == '_' || inRanges nameStartRanges c.toNat

def isNameChar (c : Char) : Bool :=
  isNameStart c || c.isDigit || c == '-' || c == '.' || inRanges nameRanges c.toNat

end TopicCodec.Xml
