import Mathlib.Algebra.Order.Field.Power
import Mathlib.Data.Int.Log
import Mathlib.Data.Rat.Floor
import Mathlib.Tactic.Linarith
import Mathlib.Tactic.Positivity
import Mathlib.Tactic.Ring
import TopicCodec.Ieee

/-!
# Exact conversions

A finite magnitude stands for a rational number (`Format.value`). Rounding a quotient whose value
the format has gives the magnitude of that value, however the quotient is written. So where each
number of one format is one of another, converting it there and back is the identity: this holds of
`binary32` and `binary64`, subnormal numbers and signed zeros included.
-/
namespace TopicCodec.Ieee

/-! ## Quotients -/

theorem scaleTwo_pos (num : Nat) {den : Nat} (hden : 0 < den) (e : Int) :
    0 < (scaleTwo num den e).2 := by
  unfold scaleTwo
  split_ifs
  · exact hden
  · exact Nat.mul_pos hden (Nat.two_pow_pos _)

theorem scaleTwo_value (num den : Nat) (e : Int) :
    ((scaleTwo num den e).1 / (scaleTwo num den e).2 : ℚ) = num / den * 2 ^ e := by
  unfold scaleTwo
  split_ifs with he
  · obtain ⟨n, rfl⟩ := Int.eq_ofNat_of_zero_le he
    simp [mul_div_right_comm]
  · obtain ⟨n, rfl⟩ : ∃ n : Nat, e = -n := ⟨(-e).toNat, by omega⟩
    simp [div_eq_mul_inv, mul_assoc, mul_comm]

theorem roundQuotient_mul {n d : Nat} (hd : 0 < d) : roundQuotient (n * d) d = n := by
  simp [roundQuotient, Nat.mul_div_cancel _ hd, hd]

theorem log2_bounds {n : Nat} (hn : n ≠ 0) :
    (2 : ℚ) ^ (n.log2 : Int) ≤ n ∧ (n : ℚ) < 2 ^ (n.log2 + 1 : Int) := by
  constructor
  · exact_mod_cast Nat.log2_self_le hn
  · exact_mod_cast Nat.lt_log2_self

theorem log_div_bounds {num den : Nat} (hnum : num ≠ 0) (hden : den ≠ 0) :
    (num.log2 : Int) - den.log2 - 1 ≤ Int.log 2 (num / den : ℚ) ∧
      Int.log 2 (num / den : ℚ) ≤ (num.log2 : Int) - den.log2 := by
  obtain ⟨hnum₁, hnum₂⟩ := log2_bounds hnum
  obtain ⟨hden₁, hden₂⟩ := log2_bounds hden
  have hnum₀ : (0 : ℚ) < num := by exact_mod_cast Nat.pos_of_ne_zero hnum
  have hden₀ : (0 : ℚ) < den := by exact_mod_cast Nat.pos_of_ne_zero hden
  constructor
  · rw [← Int.zpow_le_iff_le_log one_lt_two (div_pos hnum₀ hden₀), le_div_iff₀ hden₀]
    calc ((2 : Nat) : ℚ) ^ ((num.log2 : Int) - den.log2 - 1) * den
        ≤ 2 ^ ((num.log2 : Int) - den.log2 - 1) * 2 ^ (den.log2 + 1 : Int) := by
          push_cast
          gcongr
      _ = 2 ^ (num.log2 : Int) := by
          rw [← zpow_add₀ two_ne_zero]
          ring_nf
      _ ≤ num := hnum₁
  · rw [← Int.lt_add_one_iff, ← Int.lt_zpow_iff_log_lt one_lt_two (div_pos hnum₀ hden₀),
      div_lt_iff₀ hden₀]
    calc (num : ℚ) < 2 ^ (num.log2 + 1 : Int) := hnum₂
      _ = 2 ^ ((num.log2 : Int) - den.log2 + 1) * 2 ^ (den.log2 : Int) := by
          rw [← zpow_add₀ two_ne_zero]
          ring_nf
      _ ≤ ((2 : Nat) : ℚ) ^ ((num.log2 : Int) - den.log2 + 1) * den := by
          push_cast
          gcongr

namespace Format

variable {format : Format}

/-- The exponent is that of the leading bit of the quotient, less the width of the fraction. -/
theorem exponentOf_eq (format : Format) {num den : Nat} (hnum : num ≠ 0) (hden : den ≠ 0) :
    format.exponentOf num den =
      max (Int.log 2 (num / den : ℚ) - format.fractionWidth) format.minExponent := by
  obtain ⟨hlow, hhigh⟩ := log_div_bounds hnum hden
  have hquotient : (0 : ℚ) < num / den :=
    div_pos (by exact_mod_cast Nat.pos_of_ne_zero hnum) (by exact_mod_cast Nat.pos_of_ne_zero hden)
  unfold exponentOf
  generalize hguess : (num.log2 : Int) - den.log2 - format.fractionWidth = guess
  have hcompare : (scaleTwo num den (-guess)).1 <
      (scaleTwo num den (-guess)).2 * Nat.pow 2 format.fractionWidth ↔
        Int.log 2 (num / den : ℚ) < (num.log2 : Int) - den.log2 := by
    have hscaled : (0 : ℚ) < (scaleTwo num den (-guess)).2 := by
      exact_mod_cast scaleTwo_pos num (Nat.pos_of_ne_zero hden) (-guess)
    rw [← Int.lt_zpow_iff_log_lt one_lt_two hquotient, ← Nat.cast_lt (α := ℚ), Nat.cast_mul,
      ← div_lt_iff₀' hscaled, scaleTwo_value, zpow_neg, ← div_eq_mul_inv,
      div_lt_iff₀ (by positivity)]
    have hpower : ((Nat.pow 2 format.fractionWidth : Nat) : ℚ) * 2 ^ guess =
        ((2 : Nat) : ℚ) ^ ((num.log2 : Int) - den.log2) := by
      rw [show (num.log2 : Int) - den.log2 = format.fractionWidth + guess by omega,
        Nat.cast_ofNat, zpow_add₀ two_ne_zero]
      norm_cast
    rw [hpower]
  dsimp only
  simp only [hcompare]
  congr 1
  split_ifs <;> omega

/-! ## Values -/

/-- The number that a finite magnitude stands for. -/
def value (format : Format) (magnitude : Nat) : ℚ :=
  (format.unpack magnitude).1 * 2 ^ (format.unpack magnitude).2

theorem quotient_pos (format : Format) (magnitude : Nat) : 0 < (format.quotient magnitude).2 :=
  scaleTwo_pos _ one_pos _

theorem quotient_value (format : Format) (magnitude : Nat) :
    ((format.quotient magnitude).1 / (format.quotient magnitude).2 : ℚ) =
      format.value magnitude := by
  simp only [quotient, scaleTwo_value, value, Nat.cast_one, div_one]

/-- What a magnitude is unpacked to: a significand without leading bit at the least exponent, or
one with it. The magnitude is the significand after the steps of the exponent. -/
theorem unpack_cases (format : Format) (magnitude : Nat) :
    ∃ significand steps : Nat,
      format.unpack magnitude = (significand, format.minExponent + steps) ∧
      magnitude = steps * 2 ^ format.fractionWidth + significand ∧
      significand < 2 ^ (format.fractionWidth + 1) ∧
      (2 ^ format.fractionWidth ≤ significand ∨ steps = 0) := by
  have hsplit := Nat.div_add_mod magnitude (2 ^ format.fractionWidth)
  have hfraction := Nat.mod_lt magnitude (Nat.two_pow_pos format.fractionWidth)
  have hpow : 2 ^ (format.fractionWidth + 1) = 2 * 2 ^ format.fractionWidth := Nat.pow_succ'
  by_cases hfield : magnitude / 2 ^ format.fractionWidth = 0
  · refine ⟨magnitude % 2 ^ format.fractionWidth, 0, ?_, ?_, by omega, .inr rfl⟩
    · simp [unpack, hfield]
    · rw [hfield] at hsplit
      omega
  · obtain ⟨steps, hsteps⟩ := Nat.exists_eq_succ_of_ne_zero hfield
    refine ⟨magnitude % 2 ^ format.fractionWidth + 2 ^ format.fractionWidth, steps, ?_, ?_,
      by omega, .inl (by omega)⟩
    · simp [unpack, hsteps]
    · rw [hsteps] at hsplit
      linarith [Nat.mul_succ (2 ^ format.fractionWidth) steps]

/-- A number is rounded at the least exponent, or at the one where its significand has a leading
bit. -/
theorem exponentOf_of_value {num den significand : Nat} {e : Int} (hnum : num ≠ 0) (hden : den ≠ 0)
    (hvalue : (num / den : ℚ) = significand * 2 ^ e)
    (hlt : significand < 2 ^ (format.fractionWidth + 1)) (hmin : format.minExponent ≤ e)
    (hlead : 2 ^ format.fractionWidth ≤ significand ∨ e = format.minExponent) :
    format.exponentOf num den = e := by
  have hpos : (0 : ℚ) < significand * 2 ^ e := by
    rw [← hvalue]
    positivity
  have hhigh : Int.log 2 (significand * 2 ^ e : ℚ) < format.fractionWidth + 1 + e := by
    rw [← Int.lt_zpow_iff_log_lt one_lt_two hpos, Nat.cast_ofNat, zpow_add₀ two_ne_zero]
    gcongr
    exact_mod_cast hlt
  rw [exponentOf_eq format hnum hden, hvalue]
  rcases hlead with hlead | hlead
  · have hlow : format.fractionWidth + e ≤ Int.log 2 (significand * 2 ^ e : ℚ) := by
      rw [← Int.zpow_le_iff_le_log one_lt_two hpos, Nat.cast_ofNat, zpow_add₀ two_ne_zero]
      gcongr
      exact_mod_cast hlead
    omega
  · omega

/-- A quotient with the value of a finite magnitude is rounded to that magnitude. -/
theorem round_of_value {num den magnitude : Nat} (hden : den ≠ 0)
    (hfinite : magnitude < format.infinity)
    (hvalue : (num / den : ℚ) = format.value magnitude) : format.round num den = magnitude := by
  obtain ⟨significand, steps, hunpack, hmagnitude, hlt, hlead⟩ := format.unpack_cases magnitude
  rw [value, hunpack] at hvalue
  by_cases hnum : num = 0
  · have hzero : significand = 0 := by simpa [hnum, zpow_ne_zero] using hvalue
    have hsteps : steps = 0 := hlead.resolve_left (by simp [hzero])
    simp [round, hnum, hmagnitude, hzero, hsteps]
  · have hexponent : format.exponentOf num den = format.minExponent + steps :=
      exponentOf_of_value hnum hden hvalue hlt (by omega) (hlead.imp_right (by simp [·]))
    have hscaled := scaleTwo_pos num (Nat.pos_of_ne_zero hden) (-(format.minExponent + steps))
    have hwhole : (scaleTwo num den (-(format.minExponent + steps))).1 =
        significand * (scaleTwo num den (-(format.minExponent + steps))).2 := by
      have hback := scaleTwo_value num den (-(format.minExponent + steps))
      rw [hvalue, mul_assoc, ← zpow_add₀ two_ne_zero, add_neg_cancel, zpow_zero, mul_one,
        div_eq_iff (by exact_mod_cast hscaled.ne')] at hback
      exact_mod_cast hback
    rw [round, if_neg hnum, hexponent]
    dsimp only
    rw [hwhole, roundQuotient_mul hscaled, add_sub_cancel_left, Int.toNat_natCast]
    rw [min_eq_left] <;> simp only [Nat.pow_eq] <;> omega

/-! ## Conversions -/

theorem infinity_le_signBit (format : Format) : format.infinity ≤ format.signBit := by
  rw [infinity, signBit, Nat.pow_eq, Nat.pow_eq, Nat.pow_eq, Nat.pow_add, Nat.mul_comm (2 ^ _)]
  exact Nat.mul_le_mul_right _ (Nat.sub_le _ _)

theorem magnitude_signed {magnitude : Nat} (h : magnitude < format.signBit) (negative : Bool) :
    format.magnitude (format.signed negative magnitude) = magnitude := by
  cases negative <;> simp [Format.magnitude, signed, Nat.mod_eq_of_lt h]

theorem isNegative_signed {magnitude : Nat} (h : magnitude < format.signBit) (negative : Bool) :
    format.isNegative (format.signed negative magnitude) = negative := by
  cases negative <;> simp [isNegative, signed, h]

theorem signed_magnitude {bits : Nat} (h : bits < 2 * format.signBit) :
    format.signed (format.isNegative bits) (format.magnitude bits) = bits := by
  unfold isNegative signed Format.magnitude
  by_cases hsign : format.signBit ≤ bits
  · rw [decide_eq_true hsign, if_pos rfl, Nat.mod_eq_sub_mod hsign, Nat.mod_eq_of_lt (by omega)]
    omega
  · rw [decide_eq_false hsign, if_neg Bool.false_ne_true, Nat.mod_eq_of_lt (by omega)]

/-- Every finite number of `source` is one of `target`. -/
def Extends (source target : Format) : Prop :=
  ∀ m < source.infinity, ∃ m' < target.infinity, target.value m' = source.value m

/-- Where the source has a finite number that the target has, too, it is converted to that. -/
theorem convert_of_value {source target : Format} {bits m : Nat}
    (hfinite : source.isFinite (source.magnitude bits) = true) (hm : m < target.infinity)
    (hvalue : target.value m = source.value (source.magnitude bits)) :
    source.convert target bits = target.signed (source.isNegative bits) m := by
  have hround : target.round (source.quotient (source.magnitude bits)).1
      (source.quotient (source.magnitude bits)).2 = m :=
    round_of_value (source.quotient_pos _).ne' hm ((source.quotient_value _).trans hvalue.symm)
  simp only [convert, hfinite, if_true, hround]

/-- A conversion to a format that has every number of the source can be undone. -/
theorem Extends.convert_convert {source target : Format} (h : Extends source target) {bits : Nat}
    (hbits : bits < 2 * source.signBit)
    (hfinite : source.isFinite (source.magnitude bits) = true) :
    target.isFinite (target.magnitude (source.convert target bits)) = true ∧
      source.convert target bits < 2 * target.signBit ∧
      target.convert source (source.convert target bits) = bits := by
  have hm : source.magnitude bits < source.infinity := of_decide_eq_true hfinite
  obtain ⟨m, hlt, hvalue⟩ := h _ hm
  have hsign : m < target.signBit := hlt.trans_le target.infinity_le_signBit
  rw [convert_of_value hfinite hlt hvalue]
  have hmagnitude := magnitude_signed hsign (source.isNegative bits)
  have hfinite' : target.isFinite
      (target.magnitude (target.signed (source.isNegative bits) m)) = true := by
    rw [hmagnitude]
    exact decide_eq_true hlt
  refine ⟨hfinite', ?_, ?_⟩
  · unfold signed
    split_ifs <;> omega
  · rw [convert_of_value hfinite' hm (by rw [hmagnitude, hvalue]), isNegative_signed hsign,
      signed_magnitude hbits]

theorem value_of_lead {significand steps : Nat} (hlow : 2 ^ format.fractionWidth ≤ significand)
    (hhigh : significand < 2 ^ (format.fractionWidth + 1)) :
    format.value (steps * 2 ^ format.fractionWidth + significand) =
      significand * 2 ^ (format.minExponent + steps) := by
  obtain ⟨fraction, rfl⟩ := Nat.exists_eq_add_of_le' hlow
  have hfraction : fraction < 2 ^ format.fractionWidth := by
    rw [Nat.pow_succ'] at hhigh
    omega
  have hsplit : steps * 2 ^ format.fractionWidth + (fraction + 2 ^ format.fractionWidth) =
      fraction + 2 ^ format.fractionWidth * (steps + 1) := by
    ring
  have hfield : (fraction + 2 ^ format.fractionWidth * (steps + 1)) / 2 ^ format.fractionWidth =
      steps + 1 := by
    rw [Nat.add_mul_div_left _ _ (Nat.two_pow_pos _), Nat.div_eq_of_lt hfraction, Nat.zero_add]
  simp [value, unpack, hsplit, hfield, Nat.mod_eq_of_lt hfraction]

/-- The significand of a number is shifted up to the leading bit; the exponents reach far enough
below for subnormal numbers, too. -/
theorem binary32_extends : Extends binary32 binary64 := by
  intro m hm
  obtain ⟨significand, steps, hunpack, hmagnitude, hlt, -⟩ := binary32.unpack_cases m
  have hvalue : binary32.value m = significand * 2 ^ (-149 + steps : Int) := by
    rw [value, hunpack]
    rfl
  have hinfinity : steps * 2 ^ 23 + significand < 255 * 2 ^ 23 := hmagnitude ▸ hm
  by_cases hzero : significand = 0
  · refine ⟨0, by decide, ?_⟩
    rw [hvalue, hzero]
    simp [value, unpack]
  have hlog : significand.log2 ≤ 23 := Nat.lt_succ_iff.mp ((Nat.log2_lt hzero).mpr hlt)
  obtain ⟨shift, hshift⟩ := Nat.exists_eq_add_of_le (hlog.trans (by decide : 23 ≤ 52))
  have hlow : 2 ^ 52 ≤ significand * 2 ^ shift := by
    rw [hshift, Nat.pow_add]
    exact Nat.mul_le_mul_right _ (Nat.log2_self_le hzero)
  have hhigh : significand * 2 ^ shift < 2 ^ 53 := by
    calc significand * 2 ^ shift < 2 ^ (significand.log2 + 1) * 2 ^ shift :=
          Nat.mul_lt_mul_of_pos_right Nat.lt_log2_self (Nat.two_pow_pos _)
      _ = 2 ^ 53 := by
          rw [← Nat.pow_add]
          congr 1
          omega
  refine ⟨(925 + steps - shift) * 2 ^ 52 + significand * 2 ^ shift, ?_, ?_⟩
  · have hsteps : 925 + steps - shift ≤ 1200 := by omega
    calc (925 + steps - shift) * 2 ^ 52 + significand * 2 ^ shift
        < 1200 * 2 ^ 52 + 2 ^ 53 := Nat.add_lt_add_of_le_of_lt (Nat.mul_le_mul_right _ hsteps) hhigh
      _ ≤ binary64.infinity := by decide
  · have hlead : binary64.value ((925 + steps - shift) * 2 ^ 52 + significand * 2 ^ shift) =
        (significand * 2 ^ shift : Nat) * 2 ^ (-1074 + (925 + steps - shift : Nat) : Int) :=
      value_of_lead hlow hhigh
    rw [hlead, hvalue, Nat.cast_mul, mul_assoc, Nat.cast_pow, Nat.cast_ofNat, ← zpow_natCast,
      ← zpow_add₀ two_ne_zero]
    congr 2
    omega

end Format
end TopicCodec.Ieee
