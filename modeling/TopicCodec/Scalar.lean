/-!
# Scalar kinds and values

A scalar is a number of one of ten kinds or a boolean. A number is kept as the
bits it has on the wire, so floating-point payloads survive unchanged.
Comparison by value is `Scalar.agrees`, where a NaN differs from itself and the
two zeros are equal.
-/
namespace TopicCodec

inductive ScalarKind where
  | u8 | i8 | u16 | i16 | u32 | i32 | u64 | i64 | f32 | f64
  deriving DecidableEq, Repr

namespace ScalarKind

/-- Size in bytes, on the wire and as an alignment. -/
def width : ScalarKind → Nat
  | u8 | i8 => 1
  | u16 | i16 => 2
  | u32 | i32 | f32 => 4
  | u64 | i64 | f64 => 8

def isSigned : ScalarKind → Bool
  | i8 | i16 | i32 | i64 => true
  | _ => false

def isFloat : ScalarKind → Bool
  | f32 | f64 => true
  | _ => false

def name : ScalarKind → String
  | u8 => "u8"
  | i8 => "i8"
  | u16 => "u16"
  | i16 => "i16"
  | u32 => "u32"
  | i32 => "i32"
  | u64 => "u64"
  | i64 => "i64"
  | f32 => "f32"
  | f64 => "f64"

def all : List ScalarKind := [u8, i8, u16, i16, u32, i32, u64, i64, f32, f64]

def ofName? (name : String) : Option ScalarKind :=
  all.find? (·.name == name)

theorem width_pos (kind : ScalarKind) : 0 < kind.width := by
  cases kind <;> decide

/-- The bits of one number of this kind. -/
abbrev Bits (kind : ScalarKind) := BitVec (8 * kind.width)

/-- The bits of the integer `n` when this integer kind can hold it. -/
def ofInt? (kind : ScalarKind) (n : Int) : Option kind.Bits :=
  let bits := BitVec.ofInt (8 * kind.width) n
  let back := if kind.isSigned then bits.toInt else (bits.toNat : Int)
  if kind.isFloat then none else if back = n then some bits else none

end ScalarKind

inductive Scalar where
  | bool (value : Bool)
  | number (kind : ScalarKind) (bits : kind.Bits)
  deriving DecidableEq, Repr

namespace Scalar

def kindName : Scalar → String
  | bool _ => "bool"
  | number kind _ => kind.name

def zero (kind : ScalarKind) : Scalar := number kind 0

/-- Width in bits of the fraction field of a floating-point kind. -/
def fractionWidth : ScalarKind → Nat
  | .f32 => 23
  | _ => 52

/-- All exponent bits set and some fraction bit set. -/
def isNaN : Scalar → Bool
  | bool _ => false
  | number kind bits =>
      let fraction := fractionWidth kind
      let magnitude := bits.toNat % Nat.pow 2 (8 * kind.width - 1)
      let infinity := (Nat.pow 2 (8 * kind.width - 1 - fraction) - 1) * Nat.pow 2 fraction
      kind.isFloat && decide (infinity < magnitude)

def isZero : Scalar → Bool
  | bool _ => false
  | number kind bits => kind.isFloat && bits.toNat % Nat.pow 2 (8 * kind.width - 1) == 0

/-- Equality of the values two scalars stand for. -/
def agrees (a b : Scalar) : Bool :=
  if a.isNaN then false
  else a == b || (a.isZero && b.isZero && a.kindName == b.kindName)

end Scalar
end TopicCodec
