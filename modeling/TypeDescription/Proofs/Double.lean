import Mathlib.Algebra.Ring.Nat
import TypeDescription.Number.Double

/-!
# Doubles that are integers

A double whose value is an integer of magnitude below `2 ^ 53` is the double
nearest to that integer (`Double.ofInt_of_safeInteger?`); only the sign of a zero
is lost.
-/

namespace TypeDescription

namespace Double

/-- The bits are the sign, the exponent and the fraction side by side. -/
theorem bits_eq (x : Double) :
    x.bits.toNat = (if x.negative then 0x8000000000000000 else 0) +
      (x.exponentField * 0x10000000000000 + x.fraction) := by
  have hlt : x.bits.toNat < 0x10000000000000000 := x.bits.toNat_lt
  simp only [negative, exponentField, fraction, beq_iff_eq]
  split <;> omega

theorem fraction_lt (x : Double) : x.fraction < 0x10000000000000 :=
  Nat.mod_lt _ (by decide)

theorem isZero_iff (x : Double) : x.isZero = true ↔ x.exponentField = 0 ∧ x.fraction = 0 := by
  simp only [isZero, exponentField, fraction, beq_iff_eq]
  omega

/-- The leading bit of a positive integer that is a mantissa scaled down. -/
theorem log2_of_mul_pow {m s : Nat} (hs : s ≤ 52) (hlow : 2 ^ 52 ≤ m * 2 ^ s)
    (hhigh : m * 2 ^ s < 2 ^ 53) : m.log2 = 52 - s := by
  have hm : m ≠ 0 := by
    rintro rfl
    simp at hlow
  have hpos : 0 < 2 ^ s := Nat.two_pow_pos s
  rw [Nat.log2_eq_iff hm]
  constructor
  · refine Nat.le_of_mul_le_mul_right ?_ hpos
    rwa [← Nat.pow_add, Nat.sub_add_cancel hs]
  · refine Nat.lt_of_mul_lt_mul_right (a := 2 ^ s) ?_
    rwa [← Nat.pow_add, show 52 - s + 1 + s = 53 by omega]

/-- A positive integer that is a mantissa scaled down has that mantissa again. -/
theorem magnitudeBits_of_mul_pow {m s : Nat} (hs : s ≤ 52) (hlow : 2 ^ 52 ≤ m * 2 ^ s)
    (hhigh : m * 2 ^ s < 2 ^ 53) :
    magnitudeBits m 1 = (1074 - s) * 0x10000000000000 + m * 2 ^ s := by
  have hlog := log2_of_mul_pow hs hlow hhigh
  have hlead : leadingExponent m 1 = ((52 - s : Nat) : Int) := by
    have hle : 2 ^ (52 - s) ≤ m := by
      rw [← hlog]
      exact Nat.log2_self_le (by rintro rfl; simp at hlow)
    have hone : Nat.log2 1 = 0 := by decide
    simp only [leadingExponent, hlog, hone]
    rw [if_pos]
    · simp
    · simpa using hle
  have hunit : max (leadingExponent m 1 - 52) (-1074) = -(s : Int) := by
    rw [hlead]
    omega
  have hround : roundQuotient (m * 2 ^ s) 1 = m * 2 ^ s := by
    simp [roundQuotient, Nat.mod_one]
  simp only [magnitudeBits, hunit]
  rw [show (-(-(s : Int))).toNat = s by omega, show (-(s : Int)).toNat = 0 by omega,
    show (-(s : Int) + 1074).toNat = 1074 - s by omega]
  simp only [Nat.pow_eq, Nat.pow_zero, Nat.mul_one, hround]
  omega

/-- A double that is a positive integer below `2 ^ 53` has a mantissa that the integer
is scaled to. -/
theorem mantissa_of_integer {x : Double} {m : Nat}
    (hdvd : x.magnitude.1 % x.magnitude.2 = 0) (hquot : x.magnitude.1 / x.magnitude.2 = m)
    (hpos : 0 < m) (hsafe : m < 2 ^ 53) :
    ∃ s, s ≤ 52 ∧ x.exponentField = 1075 - s ∧ m * 2 ^ s = x.fraction + 0x10000000000000 := by
  have hfraction := x.fraction_lt
  simp only [magnitude, Nat.pow_eq] at hdvd hquot
  by_cases hzero : x.exponentField = 0
  · -- a number below the normal ones is no positive integer
    obtain ⟨d, hd, hscale⟩ : ∃ d : Nat, 52 ≤ d ∧ x.scale = -(d : Int) :=
      ⟨1074, by decide, by rw [scale, hzero]; rfl⟩
    rw [hscale, mantissa, if_pos hzero, show (-(d : Int)).toNat = 0 by omega,
      show (-(-(d : Int))).toNat = d by omega, Nat.pow_zero, Nat.mul_one, Nat.div_eq_of_lt] at hquot
    · omega
    · calc x.fraction < 2 ^ 52 := hfraction
        _ ≤ 2 ^ d := Nat.pow_le_pow_right (by decide) hd
  · have hscale : x.scale = (x.exponentField : Int) - 1075 := by
      rw [scale]
      omega
    rw [hscale, mantissa, if_neg hzero] at hquot hdvd
    rcases Nat.lt_or_ge 1075 x.exponentField with hlarge | hsmall
    · obtain ⟨d, hd⟩ : ∃ d, x.exponentField = 1075 + (d + 1) := ⟨x.exponentField - 1076, by omega⟩
      rw [hd, show (((1075 + (d + 1) : Nat) : Int) - 1075).toNat = d + 1 by omega,
        show (-(((1075 + (d + 1) : Nat) : Int) - 1075)).toNat = 0 by omega, Nat.pow_zero,
        Nat.div_one, Nat.pow_succ] at hquot
      have hpow : 1 ≤ 2 ^ d := Nat.one_le_two_pow
      have hle : 0x10000000000000 * 1 ≤ (x.fraction + 0x10000000000000) * 2 ^ d :=
        Nat.mul_le_mul (by omega) hpow
      rw [← Nat.mul_assoc] at hquot
      omega
    · obtain ⟨s, hs⟩ : ∃ s, s = 1075 - x.exponentField := ⟨_, rfl⟩
      rw [show ((x.exponentField : Int) - 1075).toNat = 0 by omega,
        show (-((x.exponentField : Int) - 1075)).toNat = s by omega, Nat.pow_zero, Nat.mul_one]
        at hquot hdvd
      have hmantissa : m * 2 ^ s = x.fraction + 0x10000000000000 := by
        rw [← hquot]
        exact Nat.div_mul_cancel (Nat.dvd_of_mod_eq_zero hdvd)
      refine ⟨s, ?_, by omega, hmantissa⟩
      have hle : 2 ^ s ≤ m * 2 ^ s := Nat.le_mul_of_pos_left _ hpos
      have hlt : 2 ^ s < 2 ^ 53 := by omega
      have := (Nat.pow_lt_pow_iff_right (by decide : 1 < 2)).1 hlt
      omega

/-- A double that is an integer of magnitude below `2 ^ 53` is the double nearest to the
integer, up to the sign of a zero. -/
theorem ofInt_of_safeInteger? {x : Double} {n : Int} (h : x.safeInteger? = some n) :
    ofInt n = if x.isZero then zero else x := by
  simp only [safeInteger?, Option.filter_eq_some_iff, integer?, Option.ite_none_right_eq_some,
    Option.some.injEq, Bool.and_eq_true, beq_iff_eq, decide_eq_true_eq] at h
  obtain ⟨⟨⟨_, hdvd⟩, hn⟩, hsafe⟩ := h
  generalize hquot : x.magnitude.1 / x.magnitude.2 = m at hn
  have hnat : n.natAbs = m := by
    rw [← hn]
    split <;> omega
  have hzero : x.isZero = true ↔ m = 0 := by
    rw [isZero_iff]
    constructor
    · rintro ⟨hexponent, hfraction⟩
      simp [← hquot, magnitude, mantissa, hexponent, hfraction]
    · rintro rfl
      have hnum : x.magnitude.1 = 0 := by
        rw [← Nat.div_add_mod x.magnitude.1 x.magnitude.2, hquot, hdvd, Nat.mul_zero]
      simp only [magnitude, Nat.pow_eq, Nat.mul_eq_zero, Nat.pow_eq_zero, mantissa] at hnum
      split at hnum <;> omega
  split
  · next hx =>
    obtain rfl := Int.natAbs_eq_zero.1 (hnat.trans (hzero.1 hx))
    rfl
  · next hx =>
    have hpos : 0 < m := Nat.pos_of_ne_zero fun h => hx (hzero.2 h)
    obtain ⟨s, hs, hexponent, hmantissa⟩ :=
      mantissa_of_integer hdvd hquot hpos (by omega)
    have hsign : n < 0 ↔ x.negative = true := by
      rw [← hn]
      split <;> simp_all <;> omega
    have hfraction := x.fraction_lt
    have hbits := x.bits_eq
    have hmagnitude : magnitudeBits m 1 = (1074 - s) * 0x10000000000000 + m * 2 ^ s :=
      magnitudeBits_of_mul_pow hs (by omega) (by omega)
    have hsame : (1074 - s) * 0x10000000000000 + m * 2 ^ s =
        x.exponentField * 0x10000000000000 + x.fraction := by omega
    have hpositive : ¬ (m = 0 ∨ 1 = 0) := by omega
    have hall : ofInt n = ⟨UInt64.ofNat x.bits.toNat⟩ := by
      simp only [ofInt, ofRatio, hnat, if_neg hpositive, hmagnitude, hsame, hbits, hsign,
        Bool.decide_eq_true]
    rw [hall, UInt64.ofNat_toNat]

theorem isFinite_of_safeInteger? {x : Double} {n : Int} (h : x.safeInteger? = some n) :
    x.isFinite = true := by
  simp only [safeInteger?, Option.filter_eq_some_iff, integer?, Option.ite_none_right_eq_some,
    Bool.and_eq_true] at h
  exact h.1.1.1

theorem safeInteger?_of_isZero {x : Double} (h : x.isZero = true) : x.safeInteger? = some 0 := by
  obtain ⟨hexponent, hfraction⟩ := (isZero_iff x).1 h
  simp [safeInteger?, integer?, isFinite, magnitude, mantissa, hexponent, hfraction]

end Double

end TypeDescription
