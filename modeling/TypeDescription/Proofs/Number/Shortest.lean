import Mathlib.Data.Nat.Cast.Order.Field
import TypeDescription.Proofs.Number.Rounding

/-!
# Shortest decimals

The decimal that is written for a double lies in its rounding range (`Double.holds_shortest`).

A grid with less room between its points than the range is wide has a point in the range, and then
one of the two neighbours of the double is such a point (`RoundingRange.isSome_onGrid`).  With
seventeen digits the grid of every double is as fine as that (`Double.isSome_onGrid_seventeen`).
-/

namespace TypeDescription

namespace Decimal

/-- The number that a decimal stands for. -/
def value (d : Decimal) : ℚ :=
  d.significand * 10 ^ d.exponent

/-- A trailing zero of the significand can stand in the exponent. -/
theorem value_trim (fuel : ℕ) (d : Decimal) : (trim fuel d).value = d.value := by
  induction fuel generalizing d with
  | zero => rfl
  | succ fuel ih =>
    rw [trim]
    split
    · next h =>
      have hten : (d.significand : ℚ) = (d.significand / 10 : ℕ) * 10 := by
        exact_mod_cast (Nat.div_mul_cancel (Nat.dvd_of_mod_eq_zero h.2)).symm
      rw [ih, value, value, zpow_add_one₀ (by norm_num), hten]
      ring
    · rfl

end Decimal

namespace RoundingRange

variable {r : RoundingRange} {tie : Tie}

/-! ## One grid -/

theorem contains_iff (hd : r.unitDenominator ≠ 0) (candidate : ℕ) (exponent : ℤ) :
    r.contains candidate exponent = true ↔ r.Holds (candidate * 10 ^ exponent) := by
  have hd' : (0 : ℚ) < r.unitDenominator := Nat.cast_pos.2 (Nat.pos_of_ne_zero hd)
  have hten : (0 : ℚ) < (10 ^ (-exponent).toNat : ℕ) := by positivity
  have hpow := zpow_eq_div 10 (by decide) exponent
  rw [Nat.cast_ofNat] at hpow
  -- both sides of each comparison are multiplied by the two denominators
  have hpoint : ((candidate * 10 ^ exponent.toNat * r.unitDenominator : ℕ) : ℚ) =
      candidate * 10 ^ exponent * (r.unitDenominator * (10 ^ (-exponent).toNat : ℕ)) := by
    rw [hpow]
    push_cast
    field_simp
  have hend (k : ℕ) : ((k * (r.unitNumerator * 10 ^ (-exponent).toNat) : ℕ) : ℚ) =
      k * r.unit * (r.unitDenominator * (10 ^ (-exponent).toNat : ℕ)) := by
    rw [unit]
    push_cast
    field_simp
  have hscale : (0 : ℚ) < r.unitDenominator * (10 ^ (-exponent).toNat : ℕ) := mul_pos hd' hten
  simp only [contains, Holds, Nat.pow_eq]
  cases r.closed with
  | true =>
    simp only [if_true, Bool.and_eq_true, decide_eq_true_eq]
    rw [← Nat.cast_le (α := ℚ), ← Nat.cast_le (α := ℚ), hpoint, hend, hend,
      mul_le_mul_iff_left₀ hscale, mul_le_mul_iff_left₀ hscale]
  | false =>
    simp only [Bool.false_eq_true, if_false, Bool.and_eq_true, decide_eq_true_eq]
    rw [← Nat.cast_lt (α := ℚ), ← Nat.cast_lt (α := ℚ), hpoint, hend, hend,
      mul_lt_mul_iff_left₀ hscale, mul_lt_mul_iff_left₀ hscale]

/-- What is written for a double lies in its range. -/
theorem holds_of_onGrid (hd : r.unitDenominator ≠ 0) {exponent : ℤ} {d : Decimal}
    (h : r.onGrid tie exponent = some d) : r.Holds d.value := by
  simp only [onGrid] at h
  split at h
  · next hbelow habove =>
    cases h
    rw [Decimal.value, ← contains_iff hd]
    dsimp only
    split
    · exact habove
    · exact hbelow
  · next hbelow _ =>
    cases h
    exact (contains_iff hd _ _).1 hbelow
  · next _ habove =>
    cases h
    exact (contains_iff hd _ _).1 habove
  · cases h

theorem holds_of_between {q : ℚ} (hlow : r.low * r.unit < q) (hhigh : q < r.high * r.unit) :
    r.Holds q := by
  rw [Holds]
  split
  · exact ⟨hlow.le, hhigh.le⟩
  · exact ⟨hlow, hhigh⟩

/-- A grid with less room between its points than the range is wide has a point in the range. -/
theorem isSome_onGrid (hd : r.unitDenominator ≠ 0) {exponent : ℤ}
    (hlow : r.low * r.unit < r.value * r.unit) (hhigh : r.value * r.unit < r.high * r.unit)
    (hfine : (10 : ℚ) ^ exponent < r.high * r.unit - r.low * r.unit) :
    (r.onGrid tie exponent).isSome = true := by
  have hd' : (0 : ℚ) < r.unitDenominator := Nat.cast_pos.2 (Nat.pos_of_ne_zero hd)
  have hpos : (0 : ℚ) < 10 ^ exponent := by positivity
  have hpow := zpow_eq_div 10 (by decide) exponent
  rw [Nat.cast_ofNat] at hpow
  obtain ⟨numerator, hn⟩ : ∃ k, k = r.value * r.unitNumerator * 10 ^ (-exponent).toNat := ⟨_, rfl⟩
  obtain ⟨denominator, hden⟩ : ∃ k, k = r.unitDenominator * 10 ^ exponent.toNat := ⟨_, rfl⟩
  have hden' : 0 < denominator := hden ▸ Nat.mul_pos (Nat.pos_of_ne_zero hd) (by positivity)
  have hratio : (numerator : ℚ) / denominator = r.value * r.unit / 10 ^ exponent := by
    rw [hn, hden, hpow, unit]
    push_cast
    field_simp
  have hbelow : ((numerator / denominator : ℕ) : ℚ) * 10 ^ exponent ≤ r.value * r.unit := by
    rw [← le_div_iff₀ hpos, ← hratio]
    exact Nat.cast_div_le
  have habove : r.value * r.unit < ((numerator / denominator + 1 : ℕ) : ℚ) * 10 ^ exponent := by
    rw [← div_lt_iff₀ hpos, ← hratio, div_lt_iff₀ (Nat.cast_pos.2 hden')]
    exact_mod_cast Nat.lt_mul_of_div_lt (Nat.lt_succ_self _) hden'
  simp only [onGrid, Nat.pow_eq, ← hn, ← hden]
  split
  · rfl
  · rfl
  · rfl
  · next hnot hnot' =>
    rw [← Bool.not_eq_true, contains_iff hd] at hnot hnot'
    have hleft : ((numerator / denominator : ℕ) : ℚ) * 10 ^ exponent ≤ r.low * r.unit :=
      not_lt.1 fun h => hnot (holds_of_between h (hbelow.trans_lt hhigh))
    have hright : r.high * r.unit ≤ ((numerator / denominator + 1 : ℕ) : ℚ) * 10 ^ exponent :=
      not_lt.1 fun h => hnot' (holds_of_between (hlow.trans habove) h)
    push_cast at hright
    linarith

/-! ## All grids -/

theorem lt_pow_length_toDigits (n : ℕ) : n < 10 ^ (Nat.toDigits 10 n).length :=
  (Nat.length_toDigits_le_iff (by decide) Nat.length_toDigits_pos).1 le_rfl

theorem pow_length_toDigits_le {n : ℕ} (hn : n ≠ 0) :
    10 ^ ((Nat.toDigits 10 n).length - 1) ≤ n := by
  by_contra hlt
  have hlength : 0 < (Nat.toDigits 10 n).length - 1 := by
    by_contra hzero
    rw [Nat.eq_zero_of_not_pos hzero] at hlt
    omega
  have hle := (Nat.length_toDigits_le_iff (by decide) hlength).2 (not_le.1 hlt)
  omega

/-- The first digit of a double counts a power of ten that is not above it. -/
theorem leadingExponent_le (hv : r.value ≠ 0) (hn : r.unitNumerator ≠ 0)
    (hd : r.unitDenominator ≠ 0) : (10 : ℚ) ^ r.leadingExponent ≤ r.value * r.unit := by
  have hd' : (0 : ℚ) < r.unitDenominator := Nat.cast_pos.2 (Nat.pos_of_ne_zero hd)
  obtain ⟨numerator, hnum⟩ : ∃ k, k = r.value * r.unitNumerator := ⟨_, rfl⟩
  have hpos : 0 < numerator := hnum ▸ Nat.pos_of_ne_zero (Nat.mul_ne_zero hv hn)
  have hvalue : (r.value : ℚ) * r.unit = numerator / r.unitDenominator := by
    rw [hnum, unit, Nat.cast_mul, mul_div_assoc]
  rw [hvalue]
  simp only [leadingExponent, ← hnum]
  split
  · next hwhole =>
    have hdigits := pow_length_toDigits_le hwhole
    have hexponent : ((Nat.toDigits 10 (numerator / r.unitDenominator)).length : ℤ) - 1 =
        ((Nat.toDigits 10 (numerator / r.unitDenominator)).length - 1 : ℕ) := by
      have := @Nat.length_toDigits_pos 10 (numerator / r.unitDenominator)
      omega
    rw [hexponent, zpow_natCast]
    exact le_trans (by exact_mod_cast hdigits) Nat.cast_div_le
  · obtain ⟨inverse, hinverse⟩ :
        ∃ k, k = (r.unitDenominator + numerator - 1) / numerator := ⟨_, rfl⟩
    have hdigits := lt_pow_length_toDigits (inverse - 1)
    have hceil : r.unitDenominator ≤ numerator * inverse := by
      have hmod := Nat.div_add_mod (r.unitDenominator + numerator - 1) numerator
      have hlt := Nat.mod_lt (r.unitDenominator + numerator - 1) hpos
      rw [← hinverse] at hmod
      omega
    rw [← hinverse, Int.negOfNat_eq, zpow_neg, Int.ofNat_eq_natCast, zpow_natCast,
      inv_le_comm₀ (by positivity) (by positivity), inv_div, div_le_iff₀ (by positivity)]
    have hle : r.unitDenominator ≤ 10 ^ (Nat.toDigits 10 (inverse - 1)).length * numerator := by
      rw [mul_comm]
      exact hceil.trans (Nat.mul_le_mul_left numerator (by omega))
    exact_mod_cast hle

/-- Where the grid with seventeen digits is fine enough, a shortest decimal is found, and it lies in
the range. -/
theorem exists_shortest (hd : r.unitDenominator ≠ 0)
    (hgrid : (r.onGrid tie (r.leadingExponent - 16)).isSome = true) :
    ∃ d, r.shortest tie = some d ∧ r.Holds d.value := by
  have hsome : (r.shortest tie).isSome = true := by
    rw [shortest, List.findSome?_isSome_iff]
    exact ⟨16, by decide, hgrid⟩
  obtain ⟨d, hshortest⟩ := Option.isSome_iff_exists.1 hsome
  obtain ⟨more, -, hmore⟩ := List.exists_of_findSome?_eq_some hshortest
  exact ⟨d, hshortest, holds_of_onGrid hd hmore⟩

end RoundingRange

namespace Double

/-! ## The decimal of a double -/

theorem unit_roundingRange_pos (x : Double) : 0 < x.roundingRange.unit := by
  rw [unit_roundingRange]
  positivity

/-- Seventeen digits are enough for every double. -/
theorem isSome_onGrid_seventeen {x : Double} (hzero : x.mantissa ≠ 0) (tie : Tie) :
    (x.roundingRange.onGrid tie (x.roundingRange.leadingExponent - 16)).isSome = true := by
  obtain ⟨hn, hd⟩ : x.roundingRange.unitNumerator ≠ 0 ∧ x.roundingRange.unitDenominator ≠ 0 :=
    ⟨(Nat.pow_pos two_pos).ne', (Nat.pow_pos two_pos).ne'⟩
  have hlow : x.roundingRange.low = 4 * x.mantissa - (if x.narrow then 1 else 2) := rfl
  have hvalue : x.roundingRange.value = 4 * x.mantissa := rfl
  have hhigh : x.roundingRange.high = 4 * x.mantissa + 2 := rfl
  have hunit := x.unit_roundingRange_pos
  have hlead := RoundingRange.leadingExponent_le
    (hvalue ▸ Nat.mul_ne_zero four_ne_zero hzero) hn hd
  -- `2 ^ 53` last places take up less than `10 ^ 16`, and a range takes up three quarters of one
  -- only where there are half as many
  have hwide : x.roundingRange.value + 10 ^ 16 * x.roundingRange.low <
      10 ^ 16 * x.roundingRange.high := by
    have hmantissa := x.mantissa_lt
    rw [hlow, hvalue, hhigh]
    split
    · next hnarrow =>
      rw [mantissa_of_narrow hnarrow]
      decide
    · omega
  refine RoundingRange.isSome_onGrid hd ?_ ?_ ?_
  · gcongr
    rw [hlow, hvalue]
    split <;> omega
  · gcongr
    rw [hvalue, hhigh]
    omega
  · have hwide' : (x.roundingRange.value : ℚ) + 10 ^ 16 * x.roundingRange.low <
        10 ^ 16 * x.roundingRange.high := by exact_mod_cast hwide
    rw [zpow_sub₀ (by norm_num), div_lt_iff₀ (by positivity)]
    refine hlead.trans_lt ?_
    have hscaled := mul_lt_mul_of_pos_right hwide' hunit
    norm_num
    linarith

/-- The decimal of a double lies in its rounding range. -/
theorem holds_shortest {x : Double} (hzero : x.mantissa ≠ 0) (tie : Tie) :
    x.roundingRange.Holds (x.shortest tie).value := by
  have hd : x.roundingRange.unitDenominator ≠ 0 := (Nat.pow_pos two_pos).ne'
  obtain ⟨d, hshortest, hholds⟩ :=
    RoundingRange.exists_shortest hd (isSome_onGrid_seventeen hzero tie)
  rw [shortest, hshortest, Option.map_some, Option.getD_some, Decimal.value_trim]
  exact hholds

end Double

end TypeDescription
