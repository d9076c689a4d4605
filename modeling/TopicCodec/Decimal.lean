import TopicCodec.Ieee

/-!
# Decimal text of floating-point numbers

`shortest` finds the fewest decimal digits that read back as a given magnitude,
and of those the nearest to it. `Layout.write` lays digits out positionally or
with an exponent, as a record of choices says. `scale` reads a decimal: an integer
significand is rounded once and then multiplied or divided by a power of ten.
-/
namespace TopicCodec.Decimal

open Ieee

/-- Decimal digits and the exponent of ten of the last one. -/
structure Digits where
  significand : Nat
  exponent : Int
  deriving DecidableEq, Repr

/-- Quotient that the digits stand for. -/
def Digits.quotient (digits : Digits) : Nat × Nat := scaleTen digits.significand 1 digits.exponent

/-- Drops trailing zeros; the fuel bounds their number. -/
def Digits.trim : (fuel : Nat) → Digits → Digits
  | 0, digits => digits
  | fuel + 1, digits =>
      if digits.significand ≠ 0 ∧ digits.significand % 10 = 0 then
        trim fuel ⟨digits.significand / 10, digits.exponent + 1⟩
      else digits

/-- Exponent of the leading decimal digit of `num / den`. -/
def leadingExponent (num den : Nat) : Int :=
  let guess : Int := ((toString num).length : Int) - (toString den).length
  let (n, d) := scaleTen num den (-guess)
  if n < d then guess - 1 else guess

/-- The nearer of two digit strings around `num / den`, the even one if they are equally near. -/
def nearer (num den : Nat) (low high : Digits) : Digits :=
  let (n, d) := scaleTen num den (-low.exponent)
  let twice := 2 * (n % d)
  if twice < d then low
  else if d < twice then high
  else if low.significand % 2 = 0 then low else high

/-- Digits with `count` places that read back as `magnitude`. -/
def withPlaces? (format : Format) (magnitude num den count : Nat) : Option Digits :=
  let e := leadingExponent num den - (count - 1 : Nat)
  let (n, d) := scaleTen num den (-e)
  let low : Digits := ⟨n / d, e⟩
  let high : Digits := ⟨n / d + 1, e⟩
  let readsBack (digits : Digits) : Bool :=
    let (n, d) := digits.quotient
    format.round n d = magnitude
  match readsBack low, readsBack high with
  | true, true => some (nearer num den low high)
  | true, false => some low
  | false, true => some high
  | false, false => none

/-- The fewest digits that read back as a finite nonzero magnitude. -/
def shortest (format : Format) (magnitude : Nat) : Digits :=
  let (num, den) := format.quotient magnitude
  let found := (List.range 17).findSome? fun i => withPlaces? format magnitude num den (i + 1)
  match found with
  | some digits => digits.trim 17
  | none => ⟨0, 0⟩

/-- Choices of a floating-point notation. -/
structure Layout where
  /-- Smallest and largest leading exponents written positionally. -/
  leastPositional : Int
  greatestPositional : Int

namespace Layout

/-- Digits with a point before the last `-exponent` of them, or zeros and `.0` behind them. -/
def positional (digits : Digits) : String :=
  let text := toString digits.significand
  if 0 ≤ digits.exponent then
    text ++ String.ofList (List.replicate digits.exponent.toNat '0') ++ ".0"
  else
    let places := (-digits.exponent).toNat
    let padded := String.ofList (List.replicate (places + 1 - text.length) '0') ++ text
    let whole := padded.toList.take (padded.length - places)
    let fraction := padded.toList.drop (padded.length - places)
    String.ofList whole ++ "." ++ String.ofList fraction

/-- One digit before the point, the others behind it, and a signed exponent with no leading zero. -/
def scientific (digits : Digits) : String :=
  let text := (toString digits.significand).toList
  let exponent := digits.exponent + (text.length - 1 : Nat)
  let mantissa := match text with
    | [d] => [d]
    | d :: rest => d :: '.' :: rest
    | [] => []
  String.ofList mantissa ++ (if 0 ≤ exponent then "e+" else "e-") ++ toString exponent.natAbs

/-- Text of a finite number given by its bits. -/
def write (layout : Layout) (format : Format) (bits : Nat) : String :=
  let magnitude := format.magnitude bits
  let sign := if format.isNegative bits then "-" else ""
  if magnitude = 0 then sign ++ "0.0"
  else
    let digits := shortest format magnitude
    let exponent := digits.exponent + ((toString digits.significand).length - 1 : Nat)
    if layout.leastPositional ≤ exponent ∧ exponent ≤ layout.greatestPositional then
      sign ++ positional digits
    else sign ++ scientific digits

end Layout

/-- Powers of ten up to this one are finite numbers of the 64-bit format. -/
def greatestPower : Nat := 308

/-- The magnitude `magnitude * 10 ^ e`, rounded after each multiplication or division by a power
of ten that is itself rounded; none if it is too large. The fuel bounds the number of divisions,
of which three already bring every magnitude to zero. -/
def scaleMagnitude : (fuel : Nat) → (magnitude : Nat) → (e : Int) → Option Nat
  | fuel, magnitude, e =>
      let (num, den) := binary64.quotient magnitude
      let power (k : Nat) := binary64.quotient (binary64.round (Nat.pow 10 k) 1)
      if e.natAbs ≤ greatestPower then
        let (pn, pd) := power e.natAbs
        let result :=
          if 0 ≤ e then binary64.round (num * pn) (den * pd)
          else binary64.round (num * pd) (den * pn)
        if binary64.isFinite result then some result else none
      else if magnitude = 0 then some 0
      else if 0 ≤ e then none
      else
        match fuel with
        | 0 => some 0
        | fuel + 1 =>
            let (pn, pd) := power greatestPower
            scaleMagnitude fuel (binary64.round (num * pd) (den * pn)) (e + greatestPower)

/-- The magnitude read for `significand * 10 ^ e`, none if it is too large. -/
def scale? (significand : Nat) (e : Int) : Option Nat :=
  scaleMagnitude 4 (binary64.round significand 1) e

end TopicCodec.Decimal
