import Mathlib.Data.List.Basic
import TypeDescription.Json.Quoted

/-!
# The grammar of JSON strings

`Json.Spells` lists the ways to write a character between the quotes of a JSON string: as it is,
with a one-letter escape, or as its UTF-16 units in hexadecimal.  No other escape is one, and
neither is a surrogate on its own: a unit writes a character only if the character has one unit.

`Json.Quotes` is the text between the quotes.  `Json.unquote` reads these texts and no others
(`unquote_eq_ok_iff`), and what `Json.quoteChars` writes is one of them (`quotes_escaped`).
-/

namespace TypeDescription.Json

/-! ## Hexadecimal digits -/

/-- The hexadecimal digits of either case, with their values. -/
def hexDigits : List (Char × Nat) :=
  "0123456789abcdef".toList.zipIdx ++ "0123456789ABCDEF".toList.zipIdx

/-- Four hexadecimal digits and the number that they write. -/
inductive HexQuad : List Char → Nat → Prop
  | mk {a b c d : Char} {i j k l : Nat} (ha : (a, i) ∈ hexDigits) (hb : (b, j) ∈ hexDigits)
      (hc : (c, k) ∈ hexDigits) (hd : (d, l) ∈ hexDigits) :
      HexQuad [a, b, c, d] (i * 4096 + j * 256 + k * 16 + l)

theorem lt_of_mem_hexDigits {c : Char} {n : Nat} (h : (c, n) ∈ hexDigits) : n < 16 :=
  (by decide : ∀ p ∈ hexDigits, p.2 < 16) _ h

theorem isAlphanum_of_mem_hexDigits {c : Char} {n : Nat} (h : (c, n) ∈ hexDigits) :
    c.isAlphanum = true :=
  (by decide : ∀ p ∈ hexDigits, p.1.isAlphanum = true) _ h

theorem hexValue?_eq_some_iff {c : Char} {n : Nat} :
    hexValue? c = some n ↔ (c, n) ∈ hexDigits := by
  constructor
  · intro h
    have hlt : c.toNat < 128 := by
      unfold hexValue? at h
      split_ifs at h with hd hl hu
      · exact Nat.lt_of_le_of_lt hd.2 (by decide)
      · exact Nat.lt_of_le_of_lt hl.2 (by decide)
      · exact Nat.lt_of_le_of_lt hu.2 (by decide)
    have hall : ∀ k : Fin 128, ∀ n ∈ hexValue? (Char.ofNat k), (Char.ofNat k, n) ∈ hexDigits := by
      decide
    have hc := hall ⟨c.toNat, hlt⟩ n
    rw [Char.ofNat_toNat] at hc
    exact hc h
  · intro h
    exact (by decide : ∀ p ∈ hexDigits, hexValue? p.1 = some p.2) _ h

theorem hexQuad_of_unit? {a b c d : Char} {u : Nat} (h : unit? a b c d = some u) :
    HexQuad [a, b, c, d] u := by
  simp only [unit?, Option.bind_eq_bind, Option.bind_eq_some_iff] at h
  obtain ⟨i, hi, j, hj, k, hk, l, hl, heq⟩ := h
  obtain rfl := Option.some.inj heq
  exact .mk (hexValue?_eq_some_iff.1 hi) (hexValue?_eq_some_iff.1 hj)
    (hexValue?_eq_some_iff.1 hk) (hexValue?_eq_some_iff.1 hl)

theorem HexQuad.exists_unit? {quad : List Char} {u : Nat} (h : HexQuad quad u) :
    ∃ a b c d, quad = [a, b, c, d] ∧ unit? a b c d = some u := by
  cases h with
  | mk ha hb hc hd =>
    refine ⟨_, _, _, _, rfl, ?_⟩
    simp [unit?, hexValue?_eq_some_iff.2 ha, hexValue?_eq_some_iff.2 hb,
      hexValue?_eq_some_iff.2 hc, hexValue?_eq_some_iff.2 hd]

theorem HexQuad.lt {quad : List Char} {u : Nat} (h : HexQuad quad u) : u < 0x10000 := by
  cases h with
  | mk ha hb hc hd =>
    have hi := lt_of_mem_hexDigits ha
    have hj := lt_of_mem_hexDigits hb
    have hk := lt_of_mem_hexDigits hc
    have hl := lt_of_mem_hexDigits hd
    omega

/-! ## The grammar -/

/-- The letters of the short escapes, with the characters that they stand for. -/
def shortEscapes : List (Char × Char) :=
  [('"', '"'), ('\\', '\\'), ('/', '/'), ('b', '\x08'), ('f', '\x0c'), ('n', '\n'), ('r', '\r'),
    ('t', '\t')]

/-- A way to write a character between the quotes. -/
inductive Spells : List Char → Char → Prop
  | plain {c : Char} (hquote : c ≠ '"') (hslash : c ≠ '\\') (hcontrol : 0x20 ≤ c.toNat) :
      Spells [c] c
  | short {letter c : Char} (h : (letter, c) ∈ shortEscapes) : Spells ['\\', letter] c
  | unit {quad : List Char} {c : Char} (h : HexQuad quad c.toNat) : Spells ('\\' :: 'u' :: quad) c
  | pair {quad quad' : List Char} {c : Char} (hc : 0x10000 ≤ c.toNat)
      (hleading : HexQuad quad (0xD800 + (c.toNat - 0x10000) / 0x400))
      (htrailing : HexQuad quad' (0xDC00 + (c.toNat - 0x10000) % 0x400)) :
      Spells ('\\' :: 'u' :: quad ++ '\\' :: 'u' :: quad') c

/-- The text between the quotes, and the characters that it denotes. -/
inductive Quotes : List Char → List Char → Prop
  | nil : Quotes [] []
  | cons {piece text chars : List Char} {c : Char} (hc : Spells piece c) (h : Quotes text chars) :
      Quotes (piece ++ text) (c :: chars)

theorem shortEscape?_eq_some_iff {letter c : Char} :
    shortEscape? letter = some c ↔ (letter, c) ∈ shortEscapes := by
  constructor
  · intro h
    unfold shortEscape? at h
    split at h <;> cases h <;> decide
  · intro h
    exact (by decide : ∀ p ∈ shortEscapes, shortEscape? p.1 = some p.2) _ h

/-! ## Reading -/

/-- A character that stands for itself is read as it is. -/
theorem unquote_plain {c : Char} (rest : List Char) (hquote : c ≠ '"') (hslash : c ≠ '\\')
    (hcontrol : 0x20 ≤ c.toNat) : unquote (c :: rest) = push c (unquote rest) := by
  rw [unquote]
  · rw [if_neg (Nat.not_lt.2 hcontrol)]
  · exact hquote
  · intro h
    exact absurd h hslash
  · intro a b c' d r h
    exact absurd h hslash
  · intro r h
    exact absurd h hslash
  · intro c' r h
    exact absurd h hslash

theorem unquote_short {letter c : Char} (rest : List Char) (h : (letter, c) ∈ shortEscapes) :
    unquote ('\\' :: letter :: rest) = push c (unquote rest) := by
  have hu : letter ≠ 'u' := (by decide : ∀ p ∈ shortEscapes, p.1 ≠ 'u') _ h
  rw [unquote]
  · rw [shortEscape?_eq_some_iff.2 h]
  · intro a b c' d r heq
    exact absurd heq hu
  · intro heq
    exact absurd heq hu

/-- No character is a surrogate, and none is above `0x10FFFF`. -/
theorem toNat_bounds (c : Char) :
    (c.toNat < 0xD800 ∨ 0xDFFF < c.toNat) ∧ c.toNat < 0x110000 := by
  have hvalid : c.toNat < 0xD800 ∨ 0xDFFF < c.toNat ∧ c.toNat < 0x110000 := c.valid
  omega

theorem toNat_ofNat {n : Nat} (h : n < 0xD800 ∨ 0xDFFF < n) (hlt : n < 0x110000) :
    (Char.ofNat n).toNat = n := by
  have hvalid : n.isValidChar := by
    unfold Nat.isValidChar
    omega
  rw [Char.ofNat, dif_pos hvalid]
  rfl

theorem isTrailing_eq_true_iff {u : Nat} : isTrailing u = true ↔ 0xDC00 ≤ u ∧ u ≤ 0xDFFF := by
  simp [isTrailing]

theorem isLeading_eq_true_iff {u : Nat} : isLeading u = true ↔ 0xD800 ≤ u ∧ u ≤ 0xDBFF := by
  simp [isLeading]

theorem unquote_unit {quad : List Char} {c : Char} (rest : List Char) (h : HexQuad quad c.toNat) :
    unquote ('\\' :: 'u' :: (quad ++ rest)) = push c (unquote rest) := by
  obtain ⟨a, b, d, e, rfl, hunit⟩ := h.exists_unit?
  have hc := toNat_bounds c
  have htrailing : ¬ isTrailing c.toNat = true := by
    rw [isTrailing_eq_true_iff]
    omega
  have hleading : ¬ isLeading c.toNat = true := by
    rw [isLeading_eq_true_iff]
    omega
  simp only [List.cons_append, List.nil_append]
  rw [unquote, hunit]
  simp only [htrailing, hleading, Bool.false_eq_true, if_false, Char.ofNat_toNat]

/-- The character of a surrogate pair is above `0xFFFF`, and the halves are its units. -/
theorem toNat_pairChar {u u' : Nat} (hu : isLeading u = true) (hu' : isTrailing u' = true) :
    0x10000 ≤ (pairChar u u').toNat ∧ 0xD800 + ((pairChar u u').toNat - 0x10000) / 0x400 = u ∧
      0xDC00 + ((pairChar u u').toNat - 0x10000) % 0x400 = u' := by
  rw [isLeading_eq_true_iff] at hu
  rw [isTrailing_eq_true_iff] at hu'
  have hpair : (pairChar u u').toNat = 0x10000 + (u - 0xD800) * 0x400 + (u' - 0xDC00) :=
    toNat_ofNat (by omega) (by omega)
  omega

theorem unquote_pair {quad quad' : List Char} {c : Char} (rest : List Char)
    (hc : 0x10000 ≤ c.toNat) (hleading : HexQuad quad (0xD800 + (c.toNat - 0x10000) / 0x400))
    (htrailing : HexQuad quad' (0xDC00 + (c.toNat - 0x10000) % 0x400)) :
    unquote ('\\' :: 'u' :: (quad ++ '\\' :: 'u' :: (quad' ++ rest))) = push c (unquote rest) := by
  obtain ⟨a, b, d, e, rfl, hunit⟩ := hleading.exists_unit?
  obtain ⟨a', b', d', e', rfl, hunit'⟩ := htrailing.exists_unit?
  have hbounds := toNat_bounds c
  have hfirst : isLeading (0xD800 + (c.toNat - 0x10000) / 0x400) = true := by
    rw [isLeading_eq_true_iff]
    omega
  have hnot : ¬ isTrailing (0xD800 + (c.toNat - 0x10000) / 0x400) = true := by
    rw [isTrailing_eq_true_iff]
    omega
  have hsecond : isTrailing (0xDC00 + (c.toNat - 0x10000) % 0x400) = true := by
    rw [isTrailing_eq_true_iff]
    omega
  have hpair : pairChar (0xD800 + (c.toNat - 0x10000) / 0x400)
      (0xDC00 + (c.toNat - 0x10000) % 0x400) = c := by
    have hsum : 0x10000 + (0xD800 + (c.toNat - 0x10000) / 0x400 - 0xD800) * 0x400 +
        (0xDC00 + (c.toNat - 0x10000) % 0x400 - 0xDC00) = c.toNat := by omega
    rw [pairChar, hsum, Char.ofNat_toNat]
  simp only [List.cons_append, List.nil_append]
  rw [unquote, hunit]
  simp only [hnot, hfirst, hunit', hsecond, hpair, Bool.false_eq_true, if_false, if_true]

theorem unquote_spells {piece : List Char} {c : Char} (rest : List Char) (h : Spells piece c) :
    unquote (piece ++ rest) = push c (unquote rest) := by
  cases h with
  | plain hquote hslash hcontrol => exact unquote_plain rest hquote hslash hcontrol
  | short h => exact unquote_short rest h
  | unit h => exact unquote_unit rest h
  | pair hc hleading htrailing => simpa using unquote_pair rest hc hleading htrailing

/-- A text of the grammar is read, whatever follows its closing quote. -/
theorem unquote_quotes {text chars : List Char} (rest : List Char) (h : Quotes text chars) :
    unquote (text ++ '"' :: rest) = .ok (chars, rest) := by
  induction h with
  | nil => rfl
  | cons hc _ ih =>
    rw [List.append_assoc, unquote_spells _ hc, ih]
    rfl

theorem push_eq_ok {c : Char} {outcome : Except Fault (List Char × List Char)}
    {chars rest : List Char} (h : push c outcome = .ok (chars, rest)) :
    ∃ chars', outcome = .ok (chars', rest) ∧ chars = c :: chars' := by
  unfold push at h
  split at h
  · cases h
    exact ⟨_, rfl, rfl⟩
  · cases h

/-- What is read is a text of the grammar up to a closing quote. -/
theorem exists_quotes_of_unquote {cs chars rest : List Char} (h : unquote cs = .ok (chars, rest)) :
    ∃ text, cs = text ++ '"' :: rest ∧ Quotes text chars := by
  fun_induction unquote cs generalizing chars with
  | case2 rest =>
    cases h
    exact ⟨[], rfl, .nil⟩
  | case7 a b c d u hu htrailing hleading e f g i rest u' hu' htrailing' ih =>
    obtain ⟨chars', hrest, rfl⟩ := push_eq_ok h
    obtain ⟨text, rfl, htext⟩ := ih hrest
    obtain ⟨hlarge, hfirst, hsecond⟩ := toNat_pairChar hleading htrailing'
    refine ⟨_, ?_, .cons (.pair hlarge (hfirst ▸ hexQuad_of_unit? hu)
      (hsecond ▸ hexQuad_of_unit? hu')) htext⟩
    simp
  | case13 a b c d rest u hu htrailing hleading ih =>
    obtain ⟨chars', hrest, rfl⟩ := push_eq_ok h
    obtain ⟨text, rfl, htext⟩ := ih hrest
    have hquad := hexQuad_of_unit? hu
    rw [isTrailing_eq_true_iff] at htrailing
    rw [isLeading_eq_true_iff] at hleading
    have hlt := hquad.lt
    have hchar : (Char.ofNat u).toNat = u := toNat_ofNat (by omega) (by omega)
    exact ⟨_, by simp, .cons (.unit (hchar.symm ▸ hquad)) htext⟩
  | case15 letter rest _ _ c hshort ih =>
    obtain ⟨chars', hrest, rfl⟩ := push_eq_ok h
    obtain ⟨text, rfl, htext⟩ := ih hrest
    exact ⟨_, by simp, .cons (.short (shortEscape?_eq_some_iff.1 hshort)) htext⟩
  | case18 c rest hquote hend _ _ hslash hcontrol ih =>
    obtain ⟨chars', hrest, rfl⟩ := push_eq_ok h
    obtain ⟨text, rfl, htext⟩ := ih hrest
    have hne : c ≠ '\\' := by
      intro heq
      cases hcs : text ++ '"' :: rest with
      | nil => simp at hcs
      | cons c' rest' => exact hslash c' rest' heq hcs
    exact ⟨_, by simp, .cons (.plain hquote hne (Nat.not_lt.1 hcontrol)) htext⟩
  | _ => cases h

/-- `unquote` reads the texts of the grammar, each up to its closing quote, and no others. -/
theorem unquote_eq_ok_iff {cs chars rest : List Char} :
    unquote cs = .ok (chars, rest) ↔ ∃ text, cs = text ++ '"' :: rest ∧ Quotes text chars := by
  constructor
  · exact exists_quotes_of_unquote
  · rintro ⟨text, rfl, h⟩
    exact unquote_quotes rest h

/-! ## Passing over -/

theorem skipQuoted_plain {c : Char} (rest : List Char) (hquote : c ≠ '"') (hslash : c ≠ '\\')
    (hcontrol : 0x20 ≤ c.toNat) : skipQuoted (c :: rest) = skipQuoted rest := by
  rw [skipQuoted]
  · rw [if_neg (Nat.not_lt.2 hcontrol)]
  · exact hquote
  · intro h
    exact absurd h hslash
  · intro a b c' d r h
    exact absurd h hslash
  · intro r h
    exact absurd h hslash
  · intro c' r h
    exact absurd h hslash

theorem skipQuoted_short {letter c : Char} (rest : List Char) (h : (letter, c) ∈ shortEscapes) :
    skipQuoted ('\\' :: letter :: rest) = skipQuoted rest := by
  have hu : letter ≠ 'u' := (by decide : ∀ p ∈ shortEscapes, p.1 ≠ 'u') _ h
  rw [skipQuoted]
  · rw [shortEscape?_eq_some_iff.2 h, Option.isSome_some, if_pos rfl]
  · intro a b c' d r heq
    exact absurd heq hu
  · intro heq
    exact absurd heq hu

theorem skipQuoted_unit {quad : List Char} {u : Nat} (rest : List Char) (h : HexQuad quad u) :
    skipQuoted ('\\' :: 'u' :: (quad ++ rest)) = skipQuoted rest := by
  obtain ⟨a, b, c, d, rfl, hunit⟩ := h.exists_unit?
  simp only [List.cons_append, List.nil_append]
  rw [skipQuoted, hunit, Option.isSome_some, if_pos rfl]

theorem skipQuoted_spells {piece : List Char} {c : Char} (rest : List Char) (h : Spells piece c) :
    skipQuoted (piece ++ rest) = skipQuoted rest := by
  cases h with
  | plain hquote hslash hcontrol => exact skipQuoted_plain rest hquote hslash hcontrol
  | short h => exact skipQuoted_short rest h
  | unit h => exact skipQuoted_unit rest h
  | pair _ hleading htrailing =>
    simp only [List.cons_append, List.append_assoc]
    rw [skipQuoted_unit _ hleading, skipQuoted_unit _ htrailing]

/-- A text of the grammar is passed over, whatever follows its closing quote. -/
theorem skipQuoted_quotes {text chars : List Char} (rest : List Char) (h : Quotes text chars) :
    skipQuoted (text ++ '"' :: rest) = .ok rest := by
  induction h with
  | nil => rfl
  | cons hc _ ih => rw [List.append_assoc, skipQuoted_spells _ hc, ih]

/-! ## Writing -/

/-- The four digits of a number, in whatever case, write the number. -/
theorem HexQuad.of_lt {digit : Nat → Char} (hdigit : ∀ i : Fin 16, (digit i, i.val) ∈ hexDigits)
    {n : Nat} (h : n < 0x10000) :
    HexQuad ([n / 4096 % 16, n / 256 % 16, n / 16 % 16, n % 16].map digit) n := by
  have hmod (k : Nat) : (digit (k % 16), k % 16) ∈ hexDigits :=
    hdigit ⟨k % 16, Nat.mod_lt k (by decide)⟩
  have hquad := HexQuad.mk (hmod (n / 4096)) (hmod (n / 256)) (hmod (n / 16)) (hmod n)
  have hsum : n / 4096 % 16 * 4096 + n / 256 % 16 * 256 + n / 16 % 16 * 16 + n % 16 = n := by omega
  rwa [hsum] at hquad

/-- How a character is written between quotes is one of its spellings. -/
theorem spells_escapeChar (c : Char) : Spells (escapeChar c) c := by
  unfold escapeChar
  split_ifs with h1 h2 h3 h4 h5 h6 h7 h8
  · subst h1
    exact .short (by decide)
  · subst h2
    exact .short (by decide)
  · subst h3
    exact .short (by decide)
  · subst h4
    exact .short (by decide)
  · subst h5
    exact .short (by decide)
  · subst h6
    exact .short (by decide)
  · subst h7
    exact .short (by decide)
  · exact .unit (.of_lt (by decide) (by omega))
  · exact .plain h1 h2 (Nat.not_lt.1 h8)

/-- If each character is written in one of its spellings, what is written denotes what was to be
written. -/
theorem Quotes.of_spells {escape : Char → List Char} (h : ∀ c, Spells (escape c) c)
    (chars : List Char) : Quotes (chars.flatMap escape) chars := by
  induction chars with
  | nil => exact .nil
  | cons c chars ih =>
    rw [List.flatMap_cons]
    exact .cons (h c) ih

/-- What is written between quotes denotes what was to be written. -/
theorem quotes_escaped (chars : List Char) : Quotes (chars.flatMap escapeChar) chars :=
  .of_spells spells_escapeChar chars

end TypeDescription.Json
