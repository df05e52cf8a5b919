import TypeDescription.Number.Text
import TypeDescription.Proofs.Number.Shortest

/-!
# Numbers read back

`Decimal.read?` reads digits with or without a point and an exponent, and `Double.read?` rounds what
was read.  Numbers in generated source are read back (`Double.read?_text`): both ways of writing a
decimal keep its value, and the shortest decimal of a double rounds to the double.
-/

namespace TypeDescription

/-! ## Reading -/

namespace Decimal

/-- The number that a run of digits writes. -/
def readDigits? (digits : List Char) : Option ℕ :=
  if digits ≠ [] ∧ digits.all Char.isDigit then some (Nat.ofDigitChars 10 digits 0) else none

/-- The exponent after the digits, if there is one. -/
def readExponent? : List Char → Option ℤ
  | [] => some 0
  | 'e' :: '-' :: digits => (readDigits? digits).map fun n : ℕ => -(n : ℤ)
  | 'e' :: '+' :: digits => (readDigits? digits).map fun n : ℕ => (n : ℤ)
  | _ => none

/-- Read a decimal without a sign. -/
def read? (chars : List Char) : Option Decimal :=
  let (whole, rest) := chars.span Char.isDigit
  let (fraction, rest) :=
    match rest with
    | '.' :: rest => rest.span Char.isDigit
    | rest => ([], rest)
  if whole.isEmpty then none
  else (readExponent? rest).map fun exponent =>
    ⟨Nat.ofDigitChars 10 (whole ++ fraction) 0, exponent - fraction.length⟩

end Decimal

namespace Double

/-- The double nearest to a decimal. -/
def ofDecimal (negative : Bool) (d : Decimal) : Double :=
  ofRatio negative (d.significand * 10 ^ d.exponent.toNat) (10 ^ (-d.exponent).toNat)

/-- Read a number after its sign. -/
def readUnsigned? (negative : Bool) (chars : List Char) : Option Double :=
  if chars = "Infinity".toList then some (if negative then infinity.neg else infinity)
  else (Decimal.read? chars).map (ofDecimal negative)

/-- Read a number. -/
def read? (chars : List Char) : Option Double :=
  if chars = "NaN".toList then some nan
  else
    match chars with
    | '-' :: chars => readUnsigned? true chars
    | chars => readUnsigned? false chars

end Double

/-! ## Decimals -/

/-- A run of characters of one kind ends where a character of another kind follows. -/
theorem span_append {kind : Char → Bool} {run rest : List Char} (hrun : ∀ c ∈ run, kind c = true)
    (hrest : ∀ c ∈ rest.head?, kind c = false) : (run ++ rest).span kind = (run, rest) := by
  rw [List.span_eq_takeWhile_dropWhile, List.takeWhile_append_of_pos hrun,
    List.dropWhile_append_of_pos hrun]
  cases rest with
  | nil => simp
  | cons c rest => simp [hrest c rfl]

namespace Decimal

theorem readExponent?_head {rest : List Char} {exponent : ℤ}
    (h : readExponent? rest = some exponent) : rest = [] ∨ ∃ tail, rest = 'e' :: tail := by
  unfold readExponent? at h
  split at h
  · exact .inl rfl
  · exact .inr ⟨_, rfl⟩
  · exact .inr ⟨_, rfl⟩
  · cases h

theorem not_isDigit_of_readExponent? {rest : List Char} {exponent : ℤ}
    (h : readExponent? rest = some exponent) : ∀ c ∈ rest.head?, c.isDigit = false := by
  rcases readExponent?_head h with rfl | ⟨tail, rfl⟩
  · exact nofun
  · rintro c ⟨⟩
    decide

theorem read?_whole {whole rest : List Char} {exponent : ℤ} (hne : whole ≠ [])
    (hwhole : ∀ c ∈ whole, c.isDigit = true) (hrest : readExponent? rest = some exponent) :
    read? (whole ++ rest) = some ⟨Nat.ofDigitChars 10 whole 0, exponent⟩ := by
  have hspan := span_append hwhole (not_isDigit_of_readExponent? hrest)
  rcases readExponent?_head hrest with rfl | ⟨tail, rfl⟩
  · rw [List.append_nil] at hspan ⊢
    simp [read?, hspan, hne, hrest, -List.span_eq_takeWhile_dropWhile]
  · simp [read?, hspan, hne, hrest, -List.span_eq_takeWhile_dropWhile]

theorem read?_point {whole fraction rest : List Char} {exponent : ℤ} (hne : whole ≠ [])
    (hwhole : ∀ c ∈ whole, c.isDigit = true) (hfraction : ∀ c ∈ fraction, c.isDigit = true)
    (hrest : readExponent? rest = some exponent) :
    read? (whole ++ '.' :: (fraction ++ rest)) =
      some ⟨Nat.ofDigitChars 10 (whole ++ fraction) 0, exponent - fraction.length⟩ := by
  have hspan : (whole ++ '.' :: (fraction ++ rest)).span Char.isDigit =
      (whole, '.' :: (fraction ++ rest)) :=
    span_append hwhole (by rintro c ⟨⟩; decide)
  have hspan' := span_append hfraction (not_isDigit_of_readExponent? hrest)
  simp [read?, hspan, hspan', hne, hrest, -List.span_eq_takeWhile_dropWhile]

/-! ## Both ways of writing -/

theorem readDigits?_toDigits (n : ℕ) : readDigits? (Nat.toDigits 10 n) = some n := by
  have hdigits : (Nat.toDigits 10 n).all Char.isDigit := List.all_eq_true.2 fun c hc =>
    Nat.isDigit_of_mem_toDigits (by decide) (by decide) hc
  rw [readDigits?, if_pos ⟨Nat.toDigits_ne_nil, hdigits⟩, Nat.ofDigitChars_ten_toDigits]

theorem digits_ne_nil (d : Decimal) : d.digits ≠ [] :=
  Nat.toDigits_ne_nil

theorem isDigit_digits (d : Decimal) : ∀ c ∈ d.digits, c.isDigit = true :=
  fun _ hc => Nat.isDigit_of_mem_toDigits (by decide) (by decide) hc

theorem ofDigitChars_digits (d : Decimal) : Nat.ofDigitChars 10 d.digits 0 = d.significand :=
  Nat.ofDigitChars_ten_toDigits

theorem isDigit_zeros (n : ℕ) : ∀ c ∈ List.replicate n '0', c.isDigit = true := by
  intro c hc
  rw [List.eq_of_mem_replicate hc]
  decide

/-- A decimal without an exponent is read back as the same number. -/
theorem read?_positionalText (d : Decimal) :
    ∃ d', read? (NumberStyle.source.positionalText d) = some d' ∧ d'.value = d.value := by
  have hdigit := d.isDigit_digits
  have hend : readExponent? [] = some 0 := rfl
  simp only [NumberStyle.positionalText]
  split
  · next hexponent =>
    have hread := read?_whole (List.append_ne_nil_of_left_ne_nil d.digits_ne_nil _)
      (List.forall_mem_append.2 ⟨hdigit, isDigit_zeros d.exponent.toNat⟩) hend
    have hpow : (10 : ℚ) ^ d.exponent = 10 ^ d.exponent.toNat := by
      rw [← zpow_natCast, Int.toNat_of_nonneg hexponent]
    refine ⟨_, hread, ?_⟩
    rw [value, value, Nat.ofDigitChars_append, ofDigitChars_digits, Nat.ofDigitChars_replicate_zero,
      hpow]
    push_cast
    ring
  split
  · next hexponent hfraction =>
    obtain ⟨cut, hcut⟩ : ∃ cut, cut = d.digits.length - (-d.exponent).toNat := ⟨_, rfl⟩
    have htake : d.digits.take cut ≠ [] := by
      rw [Ne, List.take_eq_nil_iff, not_or]
      exact ⟨by omega, d.digits_ne_nil⟩
    have hread := read?_point htake (fun c hc => hdigit c (List.mem_of_mem_take hc))
      (fun c (hc : c ∈ d.digits.drop cut) => hdigit c (List.mem_of_mem_drop hc)) hend
    have hlength : (0 : ℤ) - (d.digits.drop cut).length = d.exponent := by
      rw [List.length_drop]
      omega
    rw [List.append_nil, List.take_append_drop, ofDigitChars_digits, hlength] at hread
    exact ⟨d, hcut ▸ hread, rfl⟩
  · next hexponent hfraction =>
    obtain ⟨zeros, hzeros⟩ : ∃ zeros, zeros = (-d.exponent).toNat - d.digits.length := ⟨_, rfl⟩
    have hread := read?_point (List.cons_ne_nil '0' [])
      (List.forall_mem_singleton.2 (by decide))
      (List.forall_mem_append.2 ⟨isDigit_zeros zeros, hdigit⟩) hend
    have hlength : (0 : ℤ) - (List.replicate zeros '0' ++ d.digits).length = d.exponent := by
      rw [List.length_append, List.length_replicate]
      omega
    have hvalue : Nat.ofDigitChars 10 (['0'] ++ (List.replicate zeros '0' ++ d.digits)) 0 =
        d.significand := by
      have hzero : Nat.ofDigitChars 10 ['0'] 0 = 0 := by decide
      rw [← List.append_assoc, Nat.ofDigitChars_append, Nat.ofDigitChars_append,
        Nat.ofDigitChars_replicate_zero, hzero, mul_zero, ofDigitChars_digits]
    rw [List.append_nil, hlength, hvalue] at hread
    exact ⟨d, hzeros ▸ hread, rfl⟩

/-- An exponent is read back. -/
theorem readExponent?_sign (e : ℤ) :
    readExponent? ('e' :: ((if e < 0 then ['-'] else NumberStyle.source.exponentSign.toList) ++
      Nat.toDigits 10 e.natAbs)) = some e := by
  split
  · next he =>
    have hnat : -(e.natAbs : ℤ) = e := by omega
    simp only [List.singleton_append, readExponent?, readDigits?_toDigits, Option.map_some, hnat]
  · next he =>
    have hsign : NumberStyle.source.exponentSign.toList = ['+'] := rfl
    have hnat : (e.natAbs : ℤ) = e := by omega
    simp only [hsign, List.singleton_append, readExponent?, readDigits?_toDigits, Option.map_some,
      hnat]

/-- A decimal with an exponent is read back as it is. -/
theorem read?_exponentText (d : Decimal) :
    read? (NumberStyle.source.exponentText d) = some d := by
  have hdigit := d.isDigit_digits
  have hend := readExponent?_sign d.leadingExponent
  have hleading : d.leadingExponent = d.exponent + d.digits.length - 1 := rfl
  have hvalue := d.ofDigitChars_digits
  simp only [NumberStyle.exponentText]
  split
  · next first second rest hdigits =>
    rw [hdigits] at hdigit hleading hvalue
    have hread := read?_point (List.cons_ne_nil first []) (by simpa using hdigit first)
      (fun c hc => hdigit c (List.mem_cons_of_mem first hc)) hend
    have hlength : d.leadingExponent - (second :: rest).length = d.exponent := by
      rw [hleading, List.length_cons, List.length_cons]
      omega
    have hdigits' : [first] ++ second :: rest = first :: second :: rest := rfl
    rw [hdigits', hvalue, hlength] at hread
    exact hread
  · next hdigits =>
    have hread := read?_whole d.digits_ne_nil hdigit hend
    have hlength : d.digits.length = 1 := by
      match hcases : d.digits with
      | [] => exact absurd hcases d.digits_ne_nil
      | [_] => rfl
      | first :: second :: rest => exact absurd hcases (hdigits first second rest)
    have hexponent : d.leadingExponent = d.exponent := by
      rw [hleading, hlength]
      omega
    rw [hread, hvalue, hexponent]

theorem read?_decimalText (d : Decimal) :
    ∃ d', read? (NumberStyle.source.decimalText d) = some d' ∧ d'.value = d.value := by
  rw [NumberStyle.decimalText]
  split
  · exact read?_positionalText d
  · exact ⟨d, read?_exponentText d, rfl⟩

/-- What is read starts with a digit. -/
theorem head_of_read? {chars : List Char} {d : Decimal} (h : read? chars = some d) :
    ∃ c rest, chars = c :: rest ∧ c.isDigit = true := by
  cases chars with
  | nil => simp [read?] at h
  | cons c rest =>
    refine ⟨c, rest, rfl, ?_⟩
    by_contra hc
    simp [read?, hc] at h

end Decimal

/-! ## Doubles -/

namespace Double

theorem eq_of_toNat {x y : Double} (h : x.bits.toNat = y.bits.toNat) : x = y := by
  cases x
  cases y
  congr 1
  exact UInt64.toNat_inj.1 h

theorem mantissa_ne_zero {x : Double} (h : x.isZero = false) : x.mantissa ≠ 0 := by
  have hfields := x.isZero_iff.not.1 (Bool.eq_false_iff.1 h)
  rw [mantissa]
  split
  · next hexponent => exact fun hfraction => hfields ⟨hexponent, hfraction⟩
  · omega

theorem isFinite_of_not {x : Double} (hnan : ¬ x.isNaN = true)
    (hinfinite : ¬ x.isInfinite = true) : x.isFinite = true := by
  simp only [isNaN, isInfinite, Bool.and_eq_true, beq_iff_eq, bne_iff_ne] at hnan hinfinite
  simp only [isFinite, bne_iff_ne]
  exact fun hexponent => hinfinite ⟨hexponent, by_contra fun h => hnan ⟨hexponent, h⟩⟩

theorem eq_of_isInfinite {x : Double} (h : x.isInfinite = true) :
    (if x.negative then infinity.neg else infinity) = x := by
  have hbits := x.bits_eq
  simp only [isInfinite, Bool.and_eq_true, beq_iff_eq] at h
  rw [h.1, h.2] at hbits
  split <;> exact eq_of_toNat (by simp [*, infinity, neg])

theorem eq_of_isZero {x : Double} (h : x.isZero = true) :
    x = if x.negative then zero.neg else zero := by
  have hbits := x.bits_eq
  obtain ⟨hexponent, hfraction⟩ := x.isZero_iff.1 h
  rw [hexponent, hfraction] at hbits
  split <;> exact eq_of_toNat (by simp [*, zero, neg])

/-- What starts with a digit, apart from a sign before it, can only be a decimal. -/
theorem read?_of_isDigit {c : Char} (hc : c.isDigit = true) (negative : Bool) (rest : List Char) :
    read? (if negative then '-' :: c :: rest else c :: rest) =
      (Decimal.read? (c :: rest)).map (ofDecimal negative) := by
  have hne {word : List Char} (hword : word.head?.any Char.isDigit = false) : c :: rest ≠ word := by
    rintro rfl
    simp [hc] at hword
  have hunsigned : readUnsigned? negative (c :: rest) =
      (Decimal.read? (c :: rest)).map (ofDecimal negative) := by
    rw [readUnsigned?, if_neg (hne (by decide))]
  cases negative with
  | true => exact hunsigned
  | false =>
    rw [if_neg Bool.false_ne_true]
    unfold read?
    rw [if_neg (hne (by decide))]
    split
    · next heq => exact absurd heq (hne rfl)
    · exact hunsigned

/-- A decimal of the same value as the shortest one of a double rounds to the double. -/
theorem ofDecimal_of_value {x : Double} (hx : x.isFinite = true) (hzero : x.isZero = false)
    {tie : Tie} {d : Decimal} (hd : d.value = (x.shortest tie).value) :
    ofDecimal x.negative d = x := by
  have hmantissa := mantissa_ne_zero hzero
  refine ofRatio_of_holds hx hmantissa (pow_ne_zero _ (by decide)) ?_
  have hvalue : ((d.significand * 10 ^ d.exponent.toNat : ℕ) : ℚ) /
      ((10 ^ (-d.exponent).toNat : ℕ) : ℚ) = d.value := by
    have hpow := zpow_eq_div 10 (by decide) d.exponent
    rw [Nat.cast_ofNat] at hpow
    rw [Decimal.value, hpow, Nat.cast_mul, mul_div_assoc]
  rw [hvalue, hd]
  exact holds_shortest hmantissa tie

/-- A number in generated source is read back, a NaN as the one that `NaN` names. -/
theorem read?_text {x : Double} (hx : x ≠ zero.neg) :
    read? (NumberStyle.source.text x).toList = some (if x.isNaN then nan else x) := by
  rw [NumberStyle.text]
  split
  · rfl
  split
  · next hinfinite =>
    have hword (negative : Bool) : read? (if negative then NumberStyle.source.negativeInfinity
        else NumberStyle.source.infinity).toList =
          some (if negative then infinity.neg else infinity) := by
      cases negative <;> rfl
    rw [hword, eq_of_isInfinite hinfinite]
  split
  · next hzero =>
    have hx' := eq_of_isZero hzero
    split at hx'
    · exact absurd hx' hx
    · next hsign =>
      rw [if_neg hsign, hx']
      rfl
  · next hnan hinfinite hzero =>
    have hfinite := isFinite_of_not hnan hinfinite
    obtain ⟨d, hd, hvalue⟩ := (x.shortest NumberStyle.source.tie).read?_decimalText
    obtain ⟨c, rest, htext, hc⟩ := Decimal.head_of_read? hd
    rw [htext] at hd ⊢
    rw [String.toList_ofList, read?_of_isDigit hc, hd, Option.map_some,
      ofDecimal_of_value hfinite (Bool.eq_false_iff.2 hzero) hvalue]

end Double

/-! ## The characters of a number -/

/-- A letter, a digit, a sign or a point. -/
def isNumeral (c : Char) : Bool :=
  c.isAlphanum || c == '+' || c == '-' || c == '.'

theorem isNumeral_of_isDigit {c : Char} (h : c.isDigit = true) : isNumeral c = true := by
  simp [isNumeral, Char.isAlphanum, h]

theorem Decimal.isNumeral_decimalText (d : Decimal) :
    ∀ c ∈ NumberStyle.source.decimalText d, isNumeral c = true := by
  have hdigits : ∀ c ∈ d.digits, isNumeral c = true := fun c hc =>
    isNumeral_of_isDigit (d.isDigit_digits c hc)
  have hzeros (n : ℕ) : ∀ c ∈ List.replicate n '0', isNumeral c = true := fun c hc =>
    isNumeral_of_isDigit (isDigit_zeros n c hc)
  rw [NumberStyle.decimalText]
  split
  · simp only [NumberStyle.positionalText]
    split
    · exact List.forall_mem_append.2
        ⟨List.forall_mem_append.2 ⟨hdigits, hzeros _⟩, by simp [NumberStyle.source]⟩
    split
    · exact List.forall_mem_append.2 ⟨fun c hc => hdigits c (List.mem_of_mem_take hc),
        List.forall_mem_cons.2 ⟨by decide, fun c hc => hdigits c (List.mem_of_mem_drop hc)⟩⟩
    · exact List.forall_mem_cons.2 ⟨by decide, List.forall_mem_cons.2 ⟨by decide,
        List.forall_mem_append.2 ⟨hzeros _, hdigits⟩⟩⟩
  · simp only [NumberStyle.exponentText]
    refine List.forall_mem_append.2 ⟨?_, List.forall_mem_cons.2 ⟨by decide,
      List.forall_mem_append.2 ⟨by split <;> exact List.all_eq_true.1 (by decide),
        fun c hc => isNumeral_of_isDigit (Nat.isDigit_of_mem_toDigits (by decide) (by decide) hc)⟩⟩⟩
    split
    · next first second rest hcases =>
      rw [hcases, List.forall_mem_cons] at hdigits
      exact List.forall_mem_cons.2 ⟨hdigits.1, List.forall_mem_cons.2 ⟨by decide, hdigits.2⟩⟩
    · exact hdigits

theorem Double.isNumeral_text (x : Double) :
    ∀ c ∈ (NumberStyle.source.text x).toList, isNumeral c = true := by
  have hdigits := (x.shortest NumberStyle.source.tie).isNumeral_decimalText
  simp only [NumberStyle.text]
  split
  · exact List.all_eq_true.1 (by decide)
  split
  · split <;> exact List.all_eq_true.1 (by decide)
  split
  · split <;> exact List.all_eq_true.1 (by decide)
  · rw [String.toList_ofList]
    split
    · exact List.forall_mem_cons.2 ⟨by decide, hdigits⟩
    · exact hdigits

end TypeDescription
