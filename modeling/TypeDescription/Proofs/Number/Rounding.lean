import Mathlib.Algebra.Order.Field.Basic
import Mathlib.Algebra.Order.Field.Power
import Mathlib.Algebra.Order.Ring.Rat
import Mathlib.Data.Rat.Cast.Defs
import Mathlib.Tactic.FieldSimp
import Mathlib.Tactic.Linarith
import Mathlib.Tactic.Positivity
import Mathlib.Tactic.Ring
import TypeDescription.Number.Shortest
import TypeDescription.Proofs.Double

/-!
# Rounding to doubles

`RoundingRange.Holds` says which ratios lie in the rounding range of a double, and each of them
rounds to the double (`Double.ofRatio_of_holds`).

A ratio in the range has the leading bit of the double or the one below it.  In the first case the
last place of the rounding is that of the double.  The second case comes up only just below a power
of two: the last place is half as large, and what is rounded carries into the next binade.
-/

namespace TypeDescription

/-- A power with an integral exponent is a ratio of two natural numbers, one of them `1`. -/
theorem zpow_eq_div (b : ℕ) (hb : b ≠ 0) (e : ℤ) :
    (b : ℚ) ^ e = (b ^ e.toNat : ℕ) / (b ^ (-e).toNat : ℕ) := by
  have hb' : (b : ℚ) ≠ 0 := Nat.cast_ne_zero.2 hb
  rw [Nat.cast_pow, Nat.cast_pow, ← zpow_natCast, ← zpow_natCast, ← zpow_sub₀ hb']
  congr 1
  omega

namespace RoundingRange

/-- A quarter of the gap between neighbours. -/
def unit (r : RoundingRange) : ℚ :=
  r.unitNumerator / r.unitDenominator

/-- A number lies in the range. -/
def Holds (r : RoundingRange) (q : ℚ) : Prop :=
  if r.closed then r.low * r.unit ≤ q ∧ q ≤ r.high * r.unit
  else r.low * r.unit < q ∧ q < r.high * r.unit

end RoundingRange

namespace Double

/-! ## The leading bit -/

theorem leadingExponent_bounds {numerator denominator : ℕ} (hn : numerator ≠ 0)
    (hd : denominator ≠ 0) :
    (2 : ℚ) ^ leadingExponent numerator denominator ≤ (numerator : ℚ) / denominator ∧
      (numerator : ℚ) / denominator < 2 ^ (leadingExponent numerator denominator + 1) := by
  have hd' : (0 : ℚ) < denominator := Nat.cast_pos.2 (Nat.pos_of_ne_zero hd)
  obtain ⟨e, he⟩ : ∃ e : ℤ, e = (numerator.log2 : ℤ) - denominator.log2 := ⟨_, rfl⟩
  have hlow : (2 : ℚ) ^ (e - 1) ≤ (numerator : ℚ) / denominator := by
    rw [le_div_iff₀ hd']
    have hsize : (denominator : ℚ) ≤ 2 ^ (denominator.log2 + 1 : ℤ) := by
      exact_mod_cast Nat.lt_log2_self.le
    calc (2 : ℚ) ^ (e - 1) * denominator ≤ 2 ^ (e - 1) * 2 ^ (denominator.log2 + 1 : ℤ) := by gcongr
      _ = 2 ^ (numerator.log2 : ℤ) := by
        rw [← zpow_add₀ two_ne_zero]
        congr 1
        omega
      _ ≤ numerator := by exact_mod_cast Nat.log2_self_le hn
  have hhigh : (numerator : ℚ) / denominator < 2 ^ (e + 1) := by
    rw [div_lt_iff₀ hd']
    have hsize : (2 : ℚ) ^ (denominator.log2 : ℤ) ≤ denominator := by
      exact_mod_cast Nat.log2_self_le hd
    calc (numerator : ℚ) < 2 ^ (numerator.log2 + 1 : ℤ) := by exact_mod_cast Nat.lt_log2_self
      _ = 2 ^ (e + 1) * 2 ^ (denominator.log2 : ℤ) := by
        rw [← zpow_add₀ two_ne_zero]
        congr 1
        omega
      _ ≤ 2 ^ (e + 1) * denominator := by gcongr
  have hestimate : denominator * Nat.pow 2 e.toNat ≤ numerator * Nat.pow 2 (-e).toNat ↔
      (2 : ℚ) ^ e ≤ (numerator : ℚ) / denominator := by
    have hpow := zpow_eq_div 2 two_ne_zero e
    rw [Nat.cast_ofNat] at hpow
    rw [hpow, div_le_div_iff₀ (by positivity) hd', mul_comm]
    norm_cast
  simp only [leadingExponent, ← he, hestimate]
  split
  · next hle => exact ⟨hle, hhigh⟩
  · next hlt => exact ⟨hlow, by simpa using hlt⟩

theorem leadingExponent_lt {numerator denominator : ℕ} (hn : numerator ≠ 0) (hd : denominator ≠ 0)
    {k unit : ℤ} (h : (numerator : ℚ) / denominator / 2 ^ unit < 2 ^ k) :
    leadingExponent numerator denominator < k + unit := by
  rw [div_lt_iff₀ (by positivity), ← zpow_add₀ two_ne_zero] at h
  exact (zpow_lt_zpow_iff_right₀ one_lt_two).1 ((leadingExponent_bounds hn hd).1.trans_lt h)

theorem le_leadingExponent {numerator denominator : ℕ} (hn : numerator ≠ 0) (hd : denominator ≠ 0)
    {k unit : ℤ} (h : 2 ^ k ≤ (numerator : ℚ) / denominator / 2 ^ unit) :
    k + unit ≤ leadingExponent numerator denominator := by
  rw [le_div_iff₀ (by positivity), ← zpow_add₀ two_ne_zero] at h
  have hlt := h.trans_lt (leadingExponent_bounds hn hd).2
  exact Int.lt_add_one_iff.1 ((zpow_lt_zpow_iff_right₀ one_lt_two).1 hlt)

/-! ## The quotient -/

/-- A quotient is rounded to the integer that is less than a half away, and to an even one that is a
half away. -/
theorem roundQuotient_eq {numerator denominator m : ℕ} (hd : denominator ≠ 0)
    (hlow : (m : ℚ) - 1 / 2 ≤ numerator / denominator)
    (hhigh : (numerator : ℚ) / denominator ≤ m + 1 / 2)
    (htie : m % 2 = 1 → (m : ℚ) - 1 / 2 < numerator / denominator ∧
      (numerator : ℚ) / denominator < m + 1 / 2) :
    roundQuotient numerator denominator = m := by
  have hd' : (0 : ℚ) < denominator := Nat.cast_pos.2 (Nat.pos_of_ne_zero hd)
  obtain ⟨q, hq⟩ : ∃ q, q = numerator / denominator := ⟨_, rfl⟩
  obtain ⟨r, hr⟩ : ∃ r, r = numerator % denominator := ⟨_, rfl⟩
  have hsplit : (numerator : ℚ) / denominator = q + r / denominator := by
    rw [div_eq_iff hd'.ne', add_mul, div_mul_cancel₀ _ hd'.ne', hq, hr]
    exact_mod_cast (Nat.div_add_mod' numerator denominator).symm
  rw [hsplit] at hlow hhigh htie
  have hless : (r : ℚ) / denominator < 1 := by
    rw [div_lt_one hd', hr]
    exact_mod_cast Nat.mod_lt _ (Nat.pos_of_ne_zero hd)
  have hhalf : denominator < 2 * r ↔ (1 / 2 : ℚ) < r / denominator := by
    rw [div_lt_div_iff₀ two_pos hd', one_mul, mul_comm]
    norm_cast
  have heven : denominator = 2 * r ↔ (1 / 2 : ℚ) = r / denominator := by
    rw [div_eq_div_iff two_ne_zero hd'.ne', one_mul, mul_comm]
    norm_cast
  have hpos : (0 : ℚ) ≤ r / denominator := by positivity
  simp only [roundQuotient, ← hq, ← hr, hhalf, heven]
  generalize (r : ℚ) / denominator = t at *
  rcases lt_trichotomy (1 / 2) t with hgt | rfl | hlt
  · have hbelow : (q : ℚ) < m := by linarith
    have habove : (m : ℚ) < q + 2 := by linarith
    norm_cast at hbelow habove
    rw [if_pos (.inl hgt)]
    omega
  · -- a tie is between an even and an odd integer
    have hbelow : (q : ℚ) < m + 1 := by linarith
    have habove : (m : ℚ) < q + 2 := by linarith
    norm_cast at hbelow habove
    rcases Nat.lt_or_ge q m with hq' | hq'
    · obtain rfl : m = q + 1 := by omega
      have hodd : q % 2 = 1 := by
        by_contra hne
        have hstrict := (htie (by omega)).1
        push_cast at hstrict
        linarith
      rw [if_pos (.inr ⟨rfl, hodd⟩)]
    · obtain rfl : m = q := by omega
      have hnot : ¬ m % 2 = 1 := fun hodd => by linarith [(htie hodd).2]
      rw [if_neg]
      simp [hnot]
  · have hbelow : (q : ℚ) < m + 1 := by linarith
    have habove : (m : ℚ) < q + 1 := by linarith
    norm_cast at hbelow habove
    rw [if_neg (by rintro (h | ⟨h, -⟩) <;> linarith)]
    omega

/-! ## The fields of a finite number -/

/-- How many binades of the last place there are below that of a number. -/
def place (x : Double) : ℕ :=
  x.exponentField - 1

theorem scale_eq_place (x : Double) : x.scale = (x.place : ℤ) - 1074 := by
  rw [scale, place]
  omega

theorem place_lt {x : Double} (hx : x.isFinite = true) : x.place < 2046 := by
  have hlt : x.exponentField < 2048 := Nat.mod_lt _ (by decide)
  have hne : x.exponentField ≠ 2047 := by simpa [isFinite] using hx
  rw [place]
  omega

theorem mantissa_lt (x : Double) : x.mantissa < 2 ^ 53 := by
  have hfraction := x.fraction_lt
  rw [mantissa]
  split <;> omega

/-- Sign apart, the bits count the mantissa from the place on. -/
theorem bits_eq_place (x : Double) :
    x.exponentField * 0x10000000000000 + x.fraction = x.place * 0x10000000000000 + x.mantissa := by
  rw [place, mantissa]
  split <;> omega

theorem unit_roundingRange (x : Double) : x.roundingRange.unit = 2 ^ x.scale / 4 := by
  have hunit := zpow_eq_div 2 two_ne_zero (x.scale - 2)
  simp only [roundingRange, RoundingRange.unit, Nat.pow_eq]
  rw [← hunit, Nat.cast_ofNat, zpow_sub₀ two_ne_zero]
  norm_num

/-- Whether the numbers below a double are twice as dense as those above it. -/
def narrow (x : Double) : Bool :=
  x.fraction == 0 && 1 < x.exponentField

theorem mantissa_of_narrow {x : Double} (h : x.narrow = true) : x.mantissa = 2 ^ 52 := by
  simp only [narrow, Bool.and_eq_true, beq_iff_eq, decide_eq_true_eq] at h
  rw [mantissa, if_neg (by omega)]
  omega

theorem lt_mantissa_of_not_narrow {x : Double} (hx : x.place ≠ 0) (h : x.narrow = false) :
    2 ^ 52 < x.mantissa := by
  rw [place] at hx
  have hfraction : x.fraction ≠ 0 := fun hfraction => by
    simp [narrow, hfraction, show 1 < x.exponentField by omega] at h
  rw [mantissa, if_neg (by omega)]
  omega

/-- The rounding range in units of the last place. -/
theorem holds_roundingRange_iff {x : Double} (hzero : x.mantissa ≠ 0) (q : ℚ) :
    x.roundingRange.Holds q ↔
      if x.mantissa % 2 = 0 then
        (x.mantissa - (if x.narrow then 1 / 4 else 1 / 2) : ℚ) ≤ q / 2 ^ x.scale ∧
          q / 2 ^ x.scale ≤ x.mantissa + 1 / 2
      else
        (x.mantissa - (if x.narrow then 1 / 4 else 1 / 2) : ℚ) < q / 2 ^ x.scale ∧
          q / 2 ^ x.scale < x.mantissa + 1 / 2 := by
  have hpos : (0 : ℚ) < 2 ^ x.scale := by positivity
  have hlow : (x.roundingRange.low : ℚ) * x.roundingRange.unit =
      (x.mantissa - (if x.narrow then 1 / 4 else 1 / 2)) * 2 ^ x.scale := by
    have hlow : x.roundingRange.low = 4 * x.mantissa - (if x.narrow then 1 else 2) := rfl
    rw [unit_roundingRange, hlow, Nat.cast_sub (by split <;> omega)]
    split <;> push_cast <;> ring
  have hhigh : (x.roundingRange.high : ℚ) * x.roundingRange.unit =
      (x.mantissa + 1 / 2) * 2 ^ x.scale := by
    have hhigh : x.roundingRange.high = 4 * x.mantissa + 2 := rfl
    rw [unit_roundingRange, hhigh]
    push_cast
    ring
  have hclosed : x.roundingRange.closed = true ↔ x.mantissa % 2 = 0 := by simp [roundingRange]
  rw [RoundingRange.Holds, hlow, hhigh, le_div_iff₀ hpos, div_le_iff₀ hpos, lt_div_iff₀ hpos,
    div_lt_iff₀ hpos]
  simp only [hclosed]

/-- A number in the rounding range is at most half a last place away, and less than that if the
mantissa is odd. -/
theorem bounds_of_holds {x : Double} (hzero : x.mantissa ≠ 0) {q : ℚ}
    (h : x.roundingRange.Holds q) :
    (x.mantissa - 1 / 2 : ℚ) ≤ q / 2 ^ x.scale ∧ q / 2 ^ x.scale ≤ x.mantissa + 1 / 2 ∧
      (x.mantissa % 2 = 1 →
        (x.mantissa - 1 / 2 : ℚ) < q / 2 ^ x.scale ∧ q / 2 ^ x.scale < x.mantissa + 1 / 2) := by
  rw [holds_roundingRange_iff hzero] at h
  have hgap : (if x.narrow then 1 / 4 else 1 / 2 : ℚ) ≤ 1 / 2 := by split <;> norm_num
  split at h
  · next heven => exact ⟨by linarith [h.1], h.2, by omega⟩
  · exact ⟨by linarith [h.1], h.2.le, fun _ => ⟨by linarith [h.1], h.2⟩⟩

/-- A number in the rounding range that is below the binade of the double is less than a quarter of
the last place away. -/
theorem bounds_of_holds_of_lt {x : Double} (hzero : x.mantissa ≠ 0) {q : ℚ}
    (h : x.roundingRange.Holds q) (hplace : x.place ≠ 0) (hlt : q / 2 ^ x.scale < 2 ^ 52) :
    x.mantissa = 2 ^ 52 ∧ (2 ^ 52 - 1 / 4 : ℚ) ≤ q / 2 ^ x.scale := by
  cases hnarrow : x.narrow with
  | false =>
    have hmantissa := lt_mantissa_of_not_narrow hplace hnarrow
    have hlarge : (2 ^ 52 + 1 : ℚ) ≤ x.mantissa := by exact_mod_cast hmantissa
    linarith [(bounds_of_holds hzero h).1]
  | true =>
    have hmantissa := mantissa_of_narrow hnarrow
    refine ⟨hmantissa, ?_⟩
    rw [holds_roundingRange_iff hzero, if_pos (by rw [hmantissa]; decide), hnarrow, hmantissa] at h
    simpa only [if_true, Nat.cast_pow, Nat.cast_ofNat] using h.1

/-! ## The bits -/

/-- The ratio that is rounded, in units of the last place of the rounding. -/
theorem cast_div_unit (numerator denominator : ℕ) (unit : ℤ) :
    ((numerator * Nat.pow 2 (-unit).toNat : ℕ) : ℚ) / (denominator * Nat.pow 2 unit.toNat : ℕ) =
      (numerator : ℚ) / denominator / 2 ^ unit := by
  have hunit := zpow_eq_div 2 two_ne_zero unit
  rw [Nat.cast_ofNat] at hunit
  rw [hunit]
  simp only [Nat.pow_eq, Nat.cast_mul]
  field_simp

/-- The bits by the place of the rounding and what is rounded there. -/
theorem magnitudeBits_eq {numerator denominator place m : ℕ} (hd : denominator ≠ 0)
    (hunit : max (leadingExponent numerator denominator - 52) (-1074) = (place : ℤ) - 1074)
    (hlow : (m : ℚ) - 1 / 2 ≤ numerator / denominator / 2 ^ ((place : ℤ) - 1074))
    (hhigh : (numerator : ℚ) / denominator / 2 ^ ((place : ℤ) - 1074) ≤ m + 1 / 2)
    (htie : m % 2 = 1 → (m : ℚ) - 1 / 2 < numerator / denominator / 2 ^ ((place : ℤ) - 1074) ∧
      (numerator : ℚ) / denominator / 2 ^ ((place : ℤ) - 1074) < m + 1 / 2)
    (hfinite : place * 0x10000000000000 + m ≤ 0x7ff0000000000000) :
    magnitudeBits numerator denominator = place * 0x10000000000000 + m := by
  simp only [← cast_div_unit] at hlow hhigh htie
  have hd' : denominator * Nat.pow 2 ((place : ℤ) - 1074).toNat ≠ 0 :=
    Nat.mul_ne_zero hd (Nat.pow_pos two_pos).ne'
  have hround := roundQuotient_eq hd' hlow hhigh htie
  simp only [magnitudeBits, hunit, hround]
  rw [show ((place : ℤ) - 1074 + 1074).toNat = place by omega, Nat.min_eq_left hfinite]

/-- A ratio in the rounding range of a double has its bits. -/
theorem magnitudeBits_of_holds {x : Double} (hzero : x.mantissa ≠ 0)
    (hx : x.isFinite = true) {numerator denominator : ℕ} (hn : numerator ≠ 0)
    (hd : denominator ≠ 0) (h : x.roundingRange.Holds (numerator / denominator)) :
    magnitudeBits numerator denominator = x.place * 0x10000000000000 + x.mantissa := by
  obtain ⟨hlow, hhigh, htie⟩ := bounds_of_holds hzero h
  have hbelow := bounds_of_holds_of_lt hzero h
  have hplace := place_lt hx
  have hmantissa := x.mantissa_lt
  rw [x.scale_eq_place] at hlow hhigh htie hbelow
  have hupper : (x.mantissa : ℚ) + 1 ≤ 2 ^ 53 := by exact_mod_cast hmantissa
  have habove : leadingExponent numerator denominator < 53 + ((x.place : ℤ) - 1074) :=
    leadingExponent_lt hn hd (hhigh.trans_lt (by norm_num at hupper ⊢; linarith))
  by_cases hcarry : x.place ≠ 0 ∧
      (numerator : ℚ) / denominator / 2 ^ ((x.place : ℤ) - 1074) < 2 ^ 52
  · -- just below a power of two: the rounding carries into the binade of the double
    obtain ⟨hpower, hnear⟩ := hbelow hcarry.1 hcarry.2
    have hbelow : leadingExponent numerator denominator < 52 + ((x.place : ℤ) - 1074) :=
      leadingExponent_lt hn hd (by exact_mod_cast hcarry.2)
    have hleast : 51 + ((x.place : ℤ) - 1074) ≤ leadingExponent numerator denominator :=
      le_leadingExponent hn hd (le_trans (by norm_num) hnear)
    obtain ⟨place, hprevious⟩ := Nat.exists_eq_add_one_of_ne_zero hcarry.1
    have hhalf : (numerator : ℚ) / denominator / 2 ^ ((place : ℤ) - 1074) =
        2 * ((numerator : ℚ) / denominator / 2 ^ ((x.place : ℤ) - 1074)) := by
      rw [show (x.place : ℤ) - 1074 = (place : ℤ) - 1074 + 1 by omega,
        zpow_add_one₀ two_ne_zero]
      field_simp
    have hcarried : magnitudeBits numerator denominator =
        place * 0x10000000000000 + 0x20000000000000 := by
      refine magnitudeBits_eq hd (by omega) ?_ ?_ (fun hodd => by omega) (by omega)
      · rw [hhalf]
        push_cast
        linarith
      · rw [hhalf]
        push_cast
        linarith [hcarry.2]
    rw [hcarried, hprevious, hpower, Nat.add_one_mul, Nat.add_assoc]
    rfl
  · refine magnitudeBits_eq hd ?_ hlow hhigh htie (by omega)
    rcases eq_or_ne x.place 0 with hzero | hne
    · omega
    · have hleast : 52 + ((x.place : ℤ) - 1074) ≤ leadingExponent numerator denominator :=
        le_leadingExponent hn hd (by exact_mod_cast not_lt.1 fun hlt => hcarry ⟨hne, hlt⟩)
      omega

/-- A ratio in the rounding range of a double rounds to it. -/
theorem ofRatio_of_holds {x : Double} (hx : x.isFinite = true) (hzero : x.mantissa ≠ 0)
    {numerator denominator : ℕ} (hd : denominator ≠ 0)
    (h : x.roundingRange.Holds (numerator / denominator)) :
    ofRatio x.negative numerator denominator = x := by
  have hn : numerator ≠ 0 := by
    rintro rfl
    have hlow := (bounds_of_holds hzero h).1
    have hone : (1 : ℚ) ≤ x.mantissa := by exact_mod_cast Nat.one_le_iff_ne_zero.2 hzero
    rw [Nat.cast_zero, zero_div, zero_div] at hlow
    linarith
  have hbits := x.bits_eq
  rw [bits_eq_place, ← magnitudeBits_of_holds hzero hx hn hd h] at hbits
  simp only [ofRatio, hn, hd, or_self, if_false, ← hbits, UInt64.ofNat_toNat]

end Double

end TypeDescription
