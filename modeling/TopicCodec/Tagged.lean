import TopicCodec.Json
import TopicCodec.Text.Numeral
import TopicCodec.Value

/-!
# Tagged notation

An exact JSON notation for scalars and instances. Every scalar is an object with one member
named for its kind; numbers of 64 bits are decimal texts and floating-point numbers the
hexadecimal digits of their bits, so that nothing is rounded. An instance lists its fields by
index.
-/
namespace TopicCodec

/-- An integer, as a number or as a decimal text. -/
def Json.exactInteger? : Json → Option Int
  | .integer n => some n
  | .string text =>
      match text.toList with
      | '-' :: digits => (Numeral.ofDigits? 10 digits).map fun n => -(n : Int)
      | digits => (Numeral.ofDigits? 10 digits).map fun n => (n : Int)
  | _ => none

namespace Scalar

def toTagged : Scalar → Json
  | bool value => .object [("bool", .bool value)]
  | number kind bits =>
      let value :=
        if kind.isFloat then .string (Numeral.hex (2 * kind.width) bits.toNat)
        else
          let n := if kind.isSigned then bits.toInt else (bits.toNat : Int)
          if kind.width = 8 then .string (toString n) else .integer n
      .object [(kind.name, value)]

def ofTagged? : Json → Option Scalar
  | .object [("bool", .bool value)] => some (bool value)
  | .object [(name, value)] => do
      let kind ← ScalarKind.ofName? name
      match value with
      | .string digits =>
          if kind.isFloat then
            let n ← Numeral.ofDigits? 16 digits.toList
            return number kind (BitVec.ofNat _ n)
          else return number kind (← value.exactInteger?.bind kind.ofInt?)
      | _ =>
          if kind.isFloat then none
          else return number kind (← value.exactInteger?.bind kind.ofInt?)
  | _ => none

end Scalar

namespace Value

mutual

/-- An instance; sequences also name what they hold when `typed`. -/
def toTagged (typed : Bool) : Value → Json
  | scalar value => value.toTagged
  | text value => .object [("str", .string value)]
  | struct fields => .object [("struct", .array (taggedFields typed fields))]
  | array items => .object [("array", .array (taggedItems typed items))]
  | sequence supply items =>
      let kind := match supply with
        | .leaf _ leaf => if typed then [("of", .string leaf.text)] else []
        | _ => []
      .object (("seq", .array (taggedItems typed items)) :: kind)
  | absent => .null

def taggedItems (typed : Bool) : List Value → List Json
  | [] => []
  | item :: rest => toTagged typed item :: taggedItems typed rest

def taggedFields (typed : Bool) : List (UInt32 × Value) → List Json
  | [] => []
  | (index, value) :: rest =>
      .array [.integer index.toNat, toTagged typed value] :: taggedFields typed rest

end

end Value

namespace Json

mutual

/-- A JSON value with every floating-point number written by its bits. -/
def tagFloats : Json → Json
  | float bits => object [("$f64", string (Numeral.hex 16 bits.toNat))]
  | array items => array (tagFloatItems items)
  | object members => object (tagFloatMembers members)
  | value => value

def tagFloatItems : List Json → List Json
  | [] => []
  | item :: rest => tagFloats item :: tagFloatItems rest

def tagFloatMembers : List (String × Json) → List (String × Json)
  | [] => []
  | (name, value) :: rest => (name, tagFloats value) :: tagFloatMembers rest

end

end Json
end TopicCodec
