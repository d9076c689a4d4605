/-!
# Numerals

Fixed-width and hexadecimal spellings of natural numbers, and reading of
unsigned decimal numerals with an optional plus sign.
-/
namespace TopicCodec.Numeral

/-- Left-pads with `fill` up to `width` characters. -/
def padLeft (width : Nat) (fill : Char) (text : String) : String :=
  String.ofList (List.replicate (width - text.length) fill) ++ text

/-- At least `width` decimal digits. -/
def decimal (width n : Nat) : String := padLeft width '0' (toString n)

/-- At least `width` lower-case hexadecimal digits. -/
def hex (width n : Nat) : String := padLeft width '0' (String.ofList (Nat.toDigits 16 n))

/-- Hexadecimal behind `0x`. -/
def prefixedHex (width n : Nat) : String := "0x" ++ hex width n

def digitValue? (base : Nat) (c : Char) : Option Nat :=
  let value :=
    if '0' ≤ c ∧ c ≤ '9' then some (c.toNat - '0'.toNat)
    else if 'a' ≤ c ∧ c ≤ 'f' then some (c.toNat - 'a'.toNat + 10)
    else if 'A' ≤ c ∧ c ≤ 'F' then some (c.toNat - 'A'.toNat + 10)
    else none
  value.filter (· < base)

/-- The number spelled by `digits` after the digits already read as `acc`. -/
def digitsFrom (base acc : Nat) : List Char → Option Nat
  | [] => some acc
  | c :: rest =>
      match digitValue? base c with
      | none => none
      | some d => digitsFrom base (acc * base + d) rest

/-- The number spelled by a nonempty digit list. -/
def ofDigits? (base : Nat) (digits : List Char) : Option Nat :=
  if digits.isEmpty then none else digitsFrom base 0 digits

/-- Unsigned decimal below `2 ^ 32`; a leading plus sign and leading zeros are accepted. -/
def readUInt32? (text : String) : Option UInt32 :=
  let digits := match text.toList with
    | '+' :: rest => rest
    | all => all
  match ofDigits? 10 digits with
  | some n => if n < UInt32.size then some (UInt32.ofNat n) else none
  | none => none

end TopicCodec.Numeral
