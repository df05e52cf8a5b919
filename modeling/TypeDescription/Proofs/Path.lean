import Mathlib.Data.List.Forall2
import Mathlib.Data.List.TakeDrop
import Mathlib.Data.List.TakeWhile
import TypeDescription.Path
import TypeDescription.Proofs.Quoted

/-!
# Paths and their grammar

`Step.Spells` lists the texts of a step: digits in brackets, or a JSON string in brackets.  Digits
write an index if 64 bits hold it, else the key of the same characters.  A path is `$` and any
number of such texts (`Path.Written`).

* The scan for the end of a key and the reader of JSON strings agree on where the key ends
  (`Step.parseKey?_eq_some_iff`).
* `Path.parse?` accepts the grammar and nothing else, and a text has one decomposition
  (`Path.reads_grammar`).
* The text of a path is read back (`Path.parse?_text`), so two paths have two texts
  (`Path.text_injective`).
-/

namespace TypeDescription

namespace Step

/-! ## Keys -/

/-- What the scan takes and what it leaves make up the text, but for the quote between them. -/
theorem eq_of_scanKey? {cs quoted rest : List Char} (h : scanKey? cs = some (quoted, rest)) :
    cs = quoted ++ '"' :: rest := by
  fun_induction scanKey? cs generalizing quoted with
  | case2 rest =>
    cases h
    rfl
  | case4 a b c d rest _ ih =>
    obtain ⟨⟨quoted', rest'⟩, hrest, heq⟩ := Option.map_eq_some_iff.1 h
    cases heq
    simp [ih hrest]
  | case6 c rest _ _ ih =>
    obtain ⟨⟨quoted', rest'⟩, hrest, heq⟩ := Option.map_eq_some_iff.1 h
    cases heq
    simp [ih hrest]
  | case9 c rest _ _ _ _ _ ih =>
    obtain ⟨⟨quoted', rest'⟩, hrest, heq⟩ := Option.map_eq_some_iff.1 h
    cases heq
    simp [ih hrest]
  | _ => cases h

theorem scanKey?_unit {quad : List Char} {u : Nat} (rest : List Char) (h : Json.HexQuad quad u) :
    scanKey? ('\\' :: 'u' :: (quad ++ rest)) =
      (scanKey? rest).map (Prod.map ('\\' :: 'u' :: quad ++ ·) id) := by
  cases h with
  | mk ha hb hc hd =>
    have hall := And.intro (Json.isAlphanum_of_mem_hexDigits ha)
      (And.intro (Json.isAlphanum_of_mem_hexDigits hb)
        (And.intro (Json.isAlphanum_of_mem_hexDigits hc) (Json.isAlphanum_of_mem_hexDigits hd)))
    simp only [List.cons_append, List.nil_append]
    rw [scanKey?, if_pos (by simpa using hall)]
    simp

/-- The scan passes over every spelling of a character. -/
theorem scanKey?_spells {piece : List Char} {c : Char} (rest : List Char)
    (h : Json.Spells piece c) :
    scanKey? (piece ++ rest) = (scanKey? rest).map (Prod.map (piece ++ ·) id) := by
  cases h with
  | plain hquote hslash hcontrol =>
    simp only [List.cons_append, List.nil_append]
    rw [scanKey?]
    · rw [if_neg (Nat.not_lt.2 hcontrol)]
    · exact hquote
    · intro heq
      exact absurd heq hslash
    · intro a b c' d r heq
      exact absurd heq hslash
    · intro c' r heq
      exact absurd heq hslash
  | @short letter _ h =>
    have hletter : letter ∈ escapeLetters ∧ letter ≠ 'u' :=
      (by decide : ∀ p ∈ Json.shortEscapes, p.1 ∈ escapeLetters ∧ p.1 ≠ 'u') _ h
    simp only [List.cons_append, List.nil_append]
    rw [scanKey?]
    · rw [if_pos (by simpa using hletter.1)]
      rfl
    · intro a b c' d r heq
      exact absurd heq hletter.2
  | unit h => exact scanKey?_unit rest h
  | @pair quad quad' _ hc hleading htrailing =>
    have hfirst := scanKey?_unit ('\\' :: 'u' :: (quad' ++ rest)) hleading
    rw [scanKey?_unit rest htrailing, Option.map_map, Prod.map_comp_map,
      Function.comp_id] at hfirst
    simpa [Function.comp_def] using hfirst

/-- The scan finds the closing quote of a JSON string. -/
theorem scanKey?_quotes {text chars : List Char} (rest : List Char) (h : Json.Quotes text chars) :
    scanKey? (text ++ '"' :: rest) = some (text, rest) := by
  induction h with
  | nil => rfl
  | cons hc _ ih =>
    rw [List.append_assoc, scanKey?_spells _ hc, ih]
    rfl

/-- A key is a JSON string: the scan and the reader of strings end it at the same quote. -/
theorem parseKey?_eq_some_iff {cs rest : List Char} {s : Step} :
    parseKey? cs = some (s, rest) ↔
      ∃ text name, cs = text ++ '"' :: rest ∧ Json.Quotes text name.toList ∧ s = key name := by
  constructor
  · intro h
    unfold parseKey? at h
    split at h
    · cases h
    · next quoted rest' hscan =>
      split at h
      · next chars hread =>
        cases h
        obtain ⟨text, heq, htext⟩ := Json.unquote_eq_ok_iff.1 hread
        obtain rfl := List.append_cancel_right heq
        exact ⟨quoted, _, eq_of_scanKey? hscan, by simpa using htext, rfl⟩
      · cases h
  · rintro ⟨text, name, rfl, htext, rfl⟩
    simp [parseKey?, scanKey?_quotes rest htext, Json.unquote_quotes [] htext]

/-! ## Digits -/

theorem foldDigits_eq (digits : List Char) :
    digits.foldl (fun n c => n * 10 + (c.toNat - '0'.toNat)) 0 = Nat.ofDigitChars 10 digits 0 := by
  rw [Nat.ofDigitChars_eq_foldl]
  simp only [Nat.mul_comm]

/-- Reading the decimal digits of a number gives the number. -/
theorem foldDigits_toDigits (n : Nat) :
    (Nat.toDigits 10 n).foldl (fun n c => n * 10 + (c.toNat - '0'.toNat)) 0 = n := by
  rw [foldDigits_eq, Nat.ofDigitChars_ten_toDigits]

/-- Digits denote the index of their value if 64 bits hold it, else the key of the same
characters. -/
theorem ofDigits_eq (digits : List Char) :
    ofDigits digits =
      if Nat.ofDigitChars 10 digits 0 < UInt64.size then
        index (UInt64.ofNat (Nat.ofDigitChars 10 digits 0))
      else key (String.ofList digits) := by
  rw [← foldDigits_eq]
  rfl

/-- A run of digits ends at the bracket after it. -/
private theorem span_digits {digits : List Char} (h : ∀ c ∈ digits, c.isDigit) (rest : List Char) :
    (digits ++ ']' :: rest).span Char.isDigit = (digits, ']' :: rest) := by
  rw [List.span_eq_takeWhile_dropWhile, List.takeWhile_append_of_pos h,
    List.dropWhile_append_of_pos h]
  simp [show Char.isDigit ']' = false from by decide]

theorem parseIndex?_digits {digits : List Char} (rest : List Char) (hne : digits ≠ [])
    (hdigits : ∀ c ∈ digits, c.isDigit) :
    parseIndex? (digits ++ ']' :: rest) = some (ofDigits digits, ']' :: rest) := by
  simp [parseIndex?, span_digits hdigits, hne, -List.span_eq_takeWhile_dropWhile]

theorem exists_digits_of_parseIndex? {cs rest : List Char} {s : Step}
    (h : parseIndex? cs = some (s, rest)) :
    ∃ digits, cs = digits ++ rest ∧ digits ≠ [] ∧ (∀ c ∈ digits, c.isDigit) ∧
      s = ofDigits digits := by
  simp only [parseIndex?, List.span_eq_takeWhile_dropWhile] at h
  split_ifs at h with hempty
  cases h
  refine ⟨_, List.takeWhile_append_dropWhile.symm, ?_, ?_, rfl⟩
  · simpa using hempty
  · exact fun c hc => List.mem_takeWhile_imp hc

/-! ## Steps -/

/-- The texts of a step. -/
inductive Spells : List Char → Step → Prop
  | index {digits : List Char} {i : UInt64} (hne : digits ≠ []) (hdigits : ∀ c ∈ digits, c.isDigit)
      (hi : Nat.ofDigitChars 10 digits 0 = i.toNat) : Spells ('[' :: (digits ++ [']'])) (index i)
  /-- An index that 64 bits do not hold is a key. -/
  | long {digits : List Char} (hne : digits ≠ []) (hdigits : ∀ c ∈ digits, c.isDigit)
      (hlong : UInt64.size ≤ Nat.ofDigitChars 10 digits 0) :
      Spells ('[' :: (digits ++ [']'])) (key (String.ofList digits))
  | key {text : List Char} {name : String} (h : Json.Quotes text name.toList) :
      Spells ('[' :: '"' :: (text ++ ['"', ']'])) (key name)

theorem spells_digits {digits : List Char} (hne : digits ≠ []) (hdigits : ∀ c ∈ digits, c.isDigit) :
    Spells ('[' :: (digits ++ [']'])) (ofDigits digits) := by
  rw [ofDigits_eq]
  split_ifs with hlt
  · exact .index hne hdigits (UInt64.toNat_ofNat_of_lt' hlt).symm
  · exact .long hne hdigits (Nat.not_lt.1 hlt)

/-- A run of digits is no quoted key. -/
theorem parse?_digits {digits : List Char} (rest : List Char) (hne : digits ≠ [])
    (hdigits : ∀ c ∈ digits, c.isDigit) :
    parse? (digits ++ ']' :: rest) = some (ofDigits digits, rest) := by
  obtain ⟨c, cs, rfl⟩ := List.exists_cons_of_ne_nil hne
  have hc : c ≠ '"' := by
    intro heq
    subst heq
    exact absurd (hdigits _ List.mem_cons_self) (by decide)
  have hindex := parseIndex?_digits rest hne hdigits
  simp only [List.cons_append] at hindex
  simp [parse?, hc, hindex]

/-- A text of a step is read, whatever follows it. -/
theorem parse?_spells {piece : List Char} {s : Step} (rest : List Char) (h : Spells piece s) :
    ∃ body, piece = '[' :: body ∧ parse? (body ++ rest) = some (s, rest) := by
  cases h with
  | @index digits i hne hdigits hi =>
    have hof : ofDigits digits = .index i := by
      rw [ofDigits_eq, hi, if_pos i.toNat_lt_size, UInt64.ofNat_toNat]
    refine ⟨_, rfl, ?_⟩
    simpa [hof] using parse?_digits rest hne hdigits
  | @long digits hne hdigits hlong =>
    have hof : ofDigits digits = .key (String.ofList digits) := by
      rw [ofDigits_eq, if_neg (Nat.not_lt.2 hlong)]
    refine ⟨_, rfl, ?_⟩
    simpa [hof] using parse?_digits rest hne hdigits
  | @key text name h =>
    have hkey : parseKey? (text ++ '"' :: ']' :: rest) = some (.key name, ']' :: rest) :=
      parseKey?_eq_some_iff.2 ⟨text, name, rfl, h, rfl⟩
    refine ⟨_, rfl, ?_⟩
    simp [parse?, hkey]

/-- What is read is a text of the step. -/
theorem exists_spells_of_parse? {cs rest : List Char} {s : Step}
    (h : parse? cs = some (s, rest)) : ∃ body, cs = body ++ rest ∧ Spells ('[' :: body) s := by
  unfold parse? at h
  dsimp only at h
  split at h
  · next step after hfound =>
    cases h
    split at hfound
    · obtain ⟨text, name, rfl, htext, rfl⟩ := parseKey?_eq_some_iff.1 hfound
      exact ⟨'"' :: (text ++ ['"', ']']), by simp, .key htext⟩
    · obtain ⟨digits, rfl, hne, hdigits, rfl⟩ := exists_digits_of_parseIndex? hfound
      exact ⟨digits ++ [']'], by simp, spells_digits hne hdigits⟩
  · cases h

/-- A step is written as one of its texts. -/
theorem spells_chars (s : Step) : Spells s.chars s := by
  cases s with
  | index i =>
    refine .index Nat.toDigits_ne_nil (fun c hc => ?_) Nat.ofDigitChars_ten_toDigits
    exact Nat.isDigit_of_mem_toDigits (by decide) (by decide) hc
  | key name =>
    have h := Spells.key (Json.quotes_escaped name.toList)
    simpa [chars, Json.quoteChars] using h

end Step

/-! ## Paths -/

namespace Path

/-- A text of a path: `$`, and a text of each step. -/
def Written (text : String) (pieces : List (List Char)) (p : Path) : Prop :=
  text.toList = '$' :: pieces.flatten ∧ List.Forall₂ Step.Spells pieces p

theorem parseSteps_spells {pieces : List (List Char)} {p : Path} {fuel : Nat}
    (h : List.Forall₂ Step.Spells pieces p) (hfuel : pieces.flatten.length ≤ fuel) :
    parseSteps fuel pieces.flatten = some p := by
  induction h generalizing fuel with
  | nil => cases fuel <;> rfl
  | @cons piece s pieces p hs _ ih =>
    obtain ⟨body, rfl, hparse⟩ := Step.parse?_spells pieces.flatten hs
    cases fuel with
    | zero => simp at hfuel
    | succ fuel =>
      simp only [List.flatten_cons, List.cons_append, List.length_cons, List.length_append] at hfuel
      simp only [List.flatten_cons, List.cons_append, parseSteps, if_true, hparse]
      rw [ih (by omega)]
      rfl

theorem exists_pieces_of_parseSteps {fuel : Nat} {cs : List Char} {p : Path}
    (h : parseSteps fuel cs = some p) :
    ∃ pieces, cs = pieces.flatten ∧ List.Forall₂ Step.Spells pieces p := by
  induction fuel generalizing cs p with
  | zero =>
    cases cs with
    | nil =>
      cases h
      exact ⟨[], rfl, .nil⟩
    | cons c rest => cases h
  | succ fuel ih =>
    cases cs with
    | nil =>
      cases h
      exact ⟨[], rfl, .nil⟩
    | cons c rest =>
      simp only [parseSteps] at h
      split_ifs at h with hc
      subst hc
      split at h
      · next s rest' hparse =>
        obtain ⟨q, hq, rfl⟩ := Option.map_eq_some_iff.1 h
        obtain ⟨body, rfl, hs⟩ := Step.exists_spells_of_parse? hparse
        obtain ⟨pieces, rfl, hpieces⟩ := ih hq
        exact ⟨('[' :: body) :: pieces, rfl, .cons hs hpieces⟩
      · cases h

/-- A text is cut into texts of steps in one way. -/
theorem pieces_unique {pieces pieces' : List (List Char)} {p p' : Path}
    (h : List.Forall₂ Step.Spells pieces p) (h' : List.Forall₂ Step.Spells pieces' p')
    (heq : pieces.flatten = pieces'.flatten) : pieces = pieces' ∧ p = p' := by
  induction h generalizing pieces' p' with
  | nil =>
    cases h' with
    | nil => exact ⟨rfl, rfl⟩
    | cons hs _ =>
      obtain ⟨body, rfl, _⟩ := Step.parse?_spells [] hs
      simp at heq
  | @cons piece s pieces p hs _ ih =>
    obtain ⟨body, rfl, hparse⟩ := Step.parse?_spells pieces.flatten hs
    cases h' with
    | nil => simp at heq
    | @cons piece' s' pieces' p' hs' htail' =>
      -- both heads are what the reader takes off the text
      obtain ⟨body', rfl, hparse'⟩ := Step.parse?_spells pieces'.flatten hs'
      simp only [List.flatten_cons, List.cons_append, List.cons.injEq, true_and] at heq
      rw [heq, hparse', Option.some.injEq, Prod.mk.injEq] at hparse
      obtain ⟨rfl, hrest⟩ := hparse
      obtain ⟨rfl, rfl⟩ := ih htail' hrest.symm
      obtain rfl := List.append_cancel_right heq
      exact ⟨rfl, rfl⟩

theorem parse?_eq_some_iff {text : String} {p : Path} :
    parse? text = some p ↔ ∃ pieces, Written text pieces p := by
  unfold parse? Written
  constructor
  · intro h
    split at h
    · next rest htext =>
      obtain ⟨pieces, rfl, hpieces⟩ := exists_pieces_of_parseSteps h
      exact ⟨pieces, htext, hpieces⟩
    · cases h
  · rintro ⟨pieces, htext, hpieces⟩
    rw [htext]
    exact parseSteps_spells hpieces (Nat.le_refl _)

/-- The text of a path is made up of the texts of its steps. -/
theorem written_text (p : Path) : Written p.text (p.map Step.chars) p := by
  constructor
  · simp [text, List.flatMap]
  · induction p with
    | nil => exact .nil
    | cons s p ih => exact .cons s.spells_chars ih

/-- The text of a path is read as that path. -/
theorem parse?_text (p : Path) : parse? p.text = some p :=
  parse?_eq_some_iff.2 ⟨_, written_text p⟩

/-- Two paths with one text are one path. -/
theorem text_injective : Function.Injective text := by
  intro p q h
  have hp := parse?_text p
  rw [h, parse?_text q] at hp
  exact (Option.some.inj hp).symm

/-- A text is read as a path exactly if it is `$` and texts of the steps of the path, and there is
only one way to cut it into texts of steps. -/
theorem reads_grammar (text : String) :
    (∀ p, parse? text = some p ↔ ∃ pieces, Written text pieces p) ∧
      ∀ pieces p pieces' p', Written text pieces p → Written text pieces' p' →
        pieces = pieces' ∧ p = p' := by
  refine ⟨fun p => parse?_eq_some_iff, fun pieces p pieces' p' h h' => ?_⟩
  have heq := h.1.symm.trans h'.1
  exact pieces_unique h.2 h'.2 (List.cons.inj heq).2

/-- Zeros may stand before an index, escapes stand for characters, and digits that 64 bits do not
hold are a key. -/
theorem reads_grammar_overlong :
    let text := "$[007][\"\\u0041/\"][18446744073709551616]"
    let p : Path := [.index 7, .key "A/", .key (String.ofList "18446744073709551616".toList)]
    let pieces := ['[' :: ("007".toList ++ [']']), '[' :: '"' :: ("\\u0041/".toList ++ ['"', ']']),
      '[' :: ("18446744073709551616".toList ++ [']'])]
    parse? text = some p ∧ Written text pieces p ∧
      ∀ pieces' p', Written text pieces' p' → pieces' = pieces ∧ p' = p := by
  intro text p pieces
  have hescaped : Json.Spells "\\u0041".toList 'A' :=
    .unit (.mk (i := 0) (j := 0) (k := 4) (l := 1) (by decide) (by decide) (by decide) (by decide))
  have hkey : Json.Quotes "\\u0041/".toList "A/".toList :=
    .cons hescaped (.cons (.plain (by decide) (by decide) (by decide)) .nil)
  have hindex : ∀ c ∈ "007".toList, c.isDigit := List.all_eq_true.1 (by decide)
  have hlong : ∀ c ∈ "18446744073709551616".toList, c.isDigit := List.all_eq_true.1 (by decide)
  have hwritten : Written text pieces p :=
    ⟨by decide, .cons (.index (by decide) hindex (by decide))
      (.cons (.key hkey) (.cons (.long (by decide) hlong (by decide)) .nil))⟩
  obtain ⟨hreads, hunique⟩ := reads_grammar text
  exact ⟨(hreads p).2 ⟨pieces, hwritten⟩, hwritten,
    fun pieces' p' h => hunique pieces' p' pieces p h hwritten⟩

/-- The text of a path is read back, so two paths have two texts, and what is read from any text is
read again from its own. -/
theorem reads_written :
    (∀ p : Path, parse? p.text = some p) ∧ Function.Injective text ∧
      ∀ s : String, ((parse? s).map text).bind parse? = parse? s := by
  refine ⟨parse?_text, text_injective, fun s => ?_⟩
  cases parse? s with
  | none => rfl
  | some p => exact parse?_text p

end Path

end TypeDescription
