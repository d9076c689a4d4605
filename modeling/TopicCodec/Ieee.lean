/-!
# Binary interchange formats

Floating-point numbers by their bits. A magnitude is the bit pattern without its
sign; a finite one stands for `significand * 2 ^ exponent`. `Format.round` gives
the magnitude nearest to a quotient of natural numbers, a tie going to the even
significand and anything past the largest finite number to infinity. The
arithmetic here is exact; the only rounding is `Format.round`.
-/
namespace TopicCodec.Ieee

structure Format where
  fractionWidth : Nat
  exponentWidth : Nat
  deriving DecidableEq, Repr

def binary32 : Format := ⟨23, 8⟩

def binary64 : Format := ⟨52, 11⟩

namespace Format

/-- Exponent of the unit in the last place of the subnormal numbers. -/
def minExponent (format : Format) : Int :=
  2 - (Nat.pow 2 (format.exponentWidth - 1) : Int) - format.fractionWidth

/-- Magnitude of infinity; larger magnitudes are NaNs. -/
def infinity (format : Format) : Nat :=
  (Nat.pow 2 format.exponentWidth - 1) * Nat.pow 2 format.fractionWidth

def signBit (format : Format) : Nat := Nat.pow 2 (format.fractionWidth + format.exponentWidth)

def isFinite (format : Format) (magnitude : Nat) : Bool := magnitude < format.infinity

/-- Significand and exponent of a finite magnitude. -/
def unpack (format : Format) (magnitude : Nat) : Nat × Int :=
  let field := magnitude / Nat.pow 2 format.fractionWidth
  let fraction := magnitude % Nat.pow 2 format.fractionWidth
  if field = 0 then (fraction, format.minExponent)
  else (fraction + Nat.pow 2 format.fractionWidth, format.minExponent + (field - 1 : Nat))

end Format

/-- `num / den` to the nearest natural number, a tie going to the even one. -/
def roundQuotient (num den : Nat) : Nat :=
  let q := num / den
  let twice := 2 * (num % den)
  if twice < den then q else if den < twice then q + 1 else q + q % 2

/-- Numerator and denominator of `num / den * 2 ^ e`. -/
def scaleTwo (num den : Nat) (e : Int) : Nat × Nat :=
  if 0 ≤ e then (num * Nat.pow 2 e.toNat, den) else (num, den * Nat.pow 2 (-e).toNat)

/-- Numerator and denominator of `num / den * 10 ^ e`. -/
def scaleTen (num den : Nat) (e : Int) : Nat × Nat :=
  if 0 ≤ e then (num * Nat.pow 10 e.toNat, den) else (num, den * Nat.pow 10 (-e).toNat)

namespace Format

/-- The exponent at which the significand of `num / den` has the width of the format. -/
def exponentOf (format : Format) (num den : Nat) : Int :=
  let guess : Int := (num.log2 : Int) - den.log2 - format.fractionWidth
  -- The quotient of the two leading powers of two is off by at most a factor of two.
  let (n, d) := scaleTwo num den (-guess)
  let exact := if n < d * Nat.pow 2 format.fractionWidth then guess - 1 else guess
  max exact format.minExponent

/-- The magnitude nearest to `num / den`. -/
def round (format : Format) (num den : Nat) : Nat :=
  if num = 0 then 0
  else
    let e := format.exponentOf num den
    let (n, d) := scaleTwo num den (-e)
    -- A significand that fills up carries into the exponent field by itself.
    min ((e - format.minExponent).toNat * Nat.pow 2 format.fractionWidth + roundQuotient n d)
      format.infinity

/-- A finite magnitude as a quotient. -/
def quotient (format : Format) (magnitude : Nat) : Nat × Nat :=
  let (significand, e) := format.unpack magnitude
  scaleTwo significand 1 e

/-- The bits with the given sign. -/
def signed (format : Format) (negative : Bool) (magnitude : Nat) : Nat :=
  if negative then format.signBit + magnitude else magnitude

def isNegative (format : Format) (bits : Nat) : Bool := format.signBit ≤ bits

def magnitude (format : Format) (bits : Nat) : Nat := bits % format.signBit

/-- The nearest number of another format; infinities stay, NaNs become the quiet NaN. -/
def convert (source target : Format) (bits : Nat) : Nat :=
  let magnitude := source.magnitude bits
  let result :=
    if source.isFinite magnitude then
      let (num, den) := source.quotient magnitude
      target.round num den
    else if magnitude = source.infinity then target.infinity
    else target.infinity + Nat.pow 2 (target.fractionWidth - 1)
  target.signed (source.isNegative bits) result

end Format
end TopicCodec.Ieee
