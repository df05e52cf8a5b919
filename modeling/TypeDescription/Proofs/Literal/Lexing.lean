import TypeDescription.Literal.Printer
import TypeDescription.Proofs.Number.Reading
import TypeDescription.Proofs.Quoted

/-!
# The lexemes of printed literals

A printed literal consists of marks, which are brackets, commas and colons, of quoted texts, and of
words, which are keys and scalars that stand bare.  `Literal.lex` takes a text apart into these.

Blanks do no more than to end a word, so the lexemes of a printed literal do not depend on its
layout (`lex_charsAt`).  A text is one lexeme whatever characters it has: each stands in one of its
spellings in JSON, and no spelling ends the text (`quotes_escaped`).
-/

namespace TypeDescription.Literal

/-! ## Lexemes -/

/-- The smallest parts of a printed literal. -/
inductive Lexeme where
  /-- A bracket, a comma or a colon. -/
  | mark (c : Char)
  /-- What a quoted text denotes. -/
  | text (s : String)
  /-- Characters that stand bare. -/
  | word (chars : List Char)
deriving DecidableEq

def isMark (c : Char) : Bool :=
  ['[', ']', '\x7b', '\x7d', ',', ':'].contains c

def isBlank (c : Char) : Bool :=
  c == ' ' || c == '\n'

/-- A character of a number, a keyword or an identifier. -/
def isWordChar (c : Char) : Bool :=
  isNumeral c || c == '_' || c == '$'

theorem isWordChar_of_isNumeral {c : Char} (h : isNumeral c = true) : isWordChar c = true := by
  simp [isWordChar, h]

theorem eq_of_isBlank {c : Char} (h : isBlank c = true) : c = ' ' ∨ c = '\n' := by
  simpa [isBlank] using h

theorem eq_of_isMark {c : Char} (h : isMark c = true) :
    c = '[' ∨ c = ']' ∨ c = '\x7b' ∨ c = '\x7d' ∨ c = ',' ∨ c = ':' := by
  simpa [isMark] using h

theorem isBlank_of_isMark {c : Char} (h : isMark c = true) : isBlank c = false := by
  rcases eq_of_isMark h with rfl | rfl | rfl | rfl | rfl | rfl <;> decide

/-- Blanks, marks and quotes end a word. -/
theorem isWordChar_of_end {c : Char} (h : isBlank c = true ∨ isMark c = true ∨ c = '"') :
    isWordChar c = false := by
  rcases h with h | h | rfl
  · rcases eq_of_isBlank h with rfl | rfl <;> decide
  · rcases eq_of_isMark h with rfl | rfl | rfl | rfl | rfl | rfl <;> decide
  · decide

theorem length_lt_of_unquote {chars text rest : List Char}
    (h : Json.unquote chars = .ok (text, rest)) : rest.length < chars.length := by
  obtain ⟨quoted, rfl, -⟩ := Json.exists_quotes_of_unquote h
  simp
  omega

/-- Take a text apart. -/
def lex (chars : List Char) : Option (List Lexeme) :=
  match chars with
  | [] => some []
  | c :: rest =>
      if isBlank c then lex rest
      else if isMark c then (lex rest).map (.mark c :: ·)
      else if c = '"' then
        match _ : Json.unquote rest with
        | .ok (text, after) => (lex after).map (.text (String.ofList text) :: ·)
        | .error _ => none
      else if isWordChar c then
        (lex (rest.dropWhile isWordChar)).map (.word (c :: rest.takeWhile isWordChar) :: ·)
      else none
termination_by chars.length
decreasing_by
  · exact Nat.lt_succ_self _
  · exact Nat.lt_succ_self _
  · exact Nat.lt_succ_of_lt (length_lt_of_unquote ‹_›)
  · exact Nat.lt_succ_of_le (List.dropWhile_sublist _).length_le

/-- No word goes on with what follows. -/
def Apart (after : List Char) : Prop :=
  ∀ c ∈ after.head?, isWordChar c = false

theorem apart_cons {c : Char} (h : isWordChar c = false) (after : List Char) :
    Apart (c :: after) := by
  rintro _ ⟨⟩
  exact h

theorem apart_blanks {blanks : List Char} (h : ∀ c ∈ blanks, isBlank c = true) {rest : List Char}
    (hrest : Apart rest) : Apart (blanks ++ rest) := by
  cases blanks with
  | nil => exact hrest
  | cons c blanks => exact apart_cons (isWordChar_of_end (.inl (h c List.mem_cons_self))) _

theorem lex_nil : lex [] = some [] := by
  rw [lex]

theorem lex_blanks {blanks : List Char} (h : ∀ c ∈ blanks, isBlank c = true) (rest : List Char) :
    lex (blanks ++ rest) = lex rest := by
  induction blanks with
  | nil => rfl
  | cons c blanks ih =>
    rw [List.forall_mem_cons] at h
    rw [List.cons_append, lex, if_pos h.1, ih h.2]

theorem lex_mark {c : Char} (h : isMark c = true) (rest : List Char) :
    lex (c :: rest) = (lex rest).map (.mark c :: ·) := by
  rw [lex, if_neg (by simp [isBlank_of_isMark h]), if_pos h]

theorem lex_text {quoted chars : List Char} (h : Json.Quotes quoted chars) (rest : List Char) :
    lex ('"' :: (quoted ++ '"' :: rest)) = (lex rest).map (.text (String.ofList chars) :: ·) := by
  rw [lex, if_neg (by decide), if_neg (by decide), if_pos rfl]
  split
  · next heq =>
    rw [Json.unquote_quotes rest h] at heq
    cases heq
    rfl
  · next heq =>
    rw [Json.unquote_quotes rest h] at heq
    cases heq

theorem lex_word {word after : List Char} (hne : word ≠ [])
    (hword : ∀ c ∈ word, isWordChar c = true) (hafter : Apart after) :
    lex (word ++ after) = (lex after).map (.word word :: ·) := by
  cases word with
  | nil => exact absurd rfl hne
  | cons c word =>
    rw [List.forall_mem_cons] at hword
    have hspan := span_append hword.2 hafter
    rw [List.span_eq_takeWhile_dropWhile, Prod.mk.injEq] at hspan
    have hend : ¬ (isBlank c = true ∨ isMark c = true ∨ c = '"') := fun h =>
      Bool.eq_false_iff.1 (isWordChar_of_end h) hword.1
    rw [not_or, not_or] at hend
    rw [List.cons_append, lex, if_neg hend.1, if_neg hend.2.1, if_neg hend.2.2, if_pos hword.1,
      hspan.1, hspan.2]

/-! ## Texts and keys -/

/-- How a character is written in a text is one of its spellings. -/
theorem spells_escapeChar (c : Char) : Json.Spells (escapeChar c) c := by
  unfold escapeChar
  split_ifs with hquote hslash hnewline hreturn htab hcode
  · subst hquote
    exact .short (by decide)
  · subst hslash
    exact .short (by decide)
  · subst hnewline
    exact .short (by decide)
  · subst hreturn
    exact .short (by decide)
  · subst htab
    exact .short (by decide)
  · exact .unit (.of_lt (by decide) (by omega))
  · exact .plain hquote hslash (by omega)

/-- What is written between the quotes denotes what was to be written. -/
theorem quotes_escaped (chars : List Char) : Json.Quotes (chars.flatMap escapeChar) chars :=
  .of_spells spells_escapeChar chars

/-- A text in quotes is one lexeme. -/
theorem lex_quoteChars (s : String) (rest : List Char) :
    lex (quoteChars s.toList ++ rest) = (lex rest).map (.text s :: ·) := by
  have h := lex_text (quotes_escaped s.toList) rest
  rw [String.ofList_toList] at h
  rwa [quoteChars, List.cons_append, List.append_assoc, List.singleton_append]

/-- The lexeme of a key. -/
def keyLexeme (key : String) : Lexeme :=
  if isName key.toList then .word key.toList else .text key

theorem isWordChar_of_isName {chars : List Char} (h : isName chars = true) :
    chars ≠ [] ∧ ∀ c ∈ chars, isWordChar c = true := by
  cases chars with
  | nil => cases h
  | cons c rest =>
    have hstart {c : Char} (hc : isNameStart c = true) : isWordChar c = true := by
      simp only [isNameStart, Bool.or_eq_true] at hc
      simp only [isWordChar, isNumeral, Char.isAlphanum, Bool.or_eq_true]
      tauto
    have hdigit {c : Char} (hc : c.isDigit = true) : isWordChar c = true := by
      exact isWordChar_of_isNumeral (isNumeral_of_isDigit hc)
    simp only [isName, Bool.and_eq_true, List.all_eq_true, Bool.or_eq_true] at h
    exact ⟨List.cons_ne_nil _ _, List.forall_mem_cons.2
      ⟨hstart h.1, fun c hc => (h.2 c hc).elim hstart hdigit⟩⟩

theorem lex_keyChars (key : String) {after : List Char} (hafter : Apart after) :
    lex (keyChars key ++ after) = (lex after).map (keyLexeme key :: ·) := by
  rw [keyChars, keyLexeme]
  split
  · next h => exact lex_word (isWordChar_of_isName h).1 (isWordChar_of_isName h).2 hafter
  · exact lex_quoteChars key after

/-! ## Scalars -/

/-- A scalar that can be read back: no verbatim expression, no negative zero, which is written as
zero, and no integer of any size whose digits are none. -/
inductive Scalar.Readable : Scalar → Prop
  | string (s : String) : Readable (string s)
  | number {x : Double} (h : x ≠ Double.zero.neg) : Readable (number x)
  | boolean (b : Bool) : Readable (boolean b)
  | undefined : Readable undefined
  | null : Readable null
  | bigInt {digits : String} (hne : digits ≠ "") (h : ∀ c ∈ digits.toList, c.isDigit = true) :
      Readable (bigInt digits)

/-- The lexeme of a scalar. -/
def Scalar.lexeme : Scalar → Lexeme
  | string s => .text s
  | value => .word value.chars

theorem lex_scalar {value : Scalar} (h : value.Readable) {after : List Char}
    (hafter : Apart after) : lex (value.chars ++ after) = (lex after).map (value.lexeme :: ·) := by
  cases h with
  | string s => exact lex_quoteChars s after
  | @number x hx =>
    have hne : (NumberStyle.source.text x).toList ≠ [] := by
      intro hnil
      have hread := Double.read?_text hx
      rw [hnil] at hread
      cases hread
    exact lex_word hne (fun c hc => isWordChar_of_isNumeral (x.isNumeral_text c hc)) hafter
  | boolean b =>
    exact lex_word (by cases b <;> decide) (by cases b <;> exact List.all_eq_true.1 (by decide))
      hafter
  | undefined => exact lex_word (by decide) (List.all_eq_true.1 (by decide)) hafter
  | null => exact lex_word (by decide) (List.all_eq_true.1 (by decide)) hafter
  | @bigInt digits _ hdigits =>
    exact lex_word (List.append_ne_nil_of_right_ne_nil _ (List.cons_ne_nil _ _))
      (List.forall_mem_append.2 ⟨fun c hc => isWordChar_of_isNumeral
        (isNumeral_of_isDigit (hdigits c hc)),
        List.forall_mem_singleton.2 (by decide)⟩) hafter

/-! ## Layouts -/

namespace Layout

/-- Nothing but blanks stands between the lexemes. -/
def IsBlank : Layout → Prop
  | compact => True
  | lines indent => ∀ c ∈ indent.toList, isBlank c = true

variable {layout : Layout}

theorem isBlank_lineBreak (hlayout : layout.IsBlank) (level : ℕ) :
    ∀ c ∈ layout.lineBreak level, isBlank c = true := by
  cases layout with
  | compact => exact fun c hc => absurd hc List.not_mem_nil
  | lines indent =>
    refine List.forall_mem_cons.2 ⟨by decide, fun c hc => ?_⟩
    obtain ⟨line, hline, hc⟩ := List.mem_flatten.1 hc
    exact hlayout c (List.eq_of_mem_replicate hline ▸ hc)

theorem isBlank_bracePad (hlayout : layout.IsBlank) (level : ℕ) :
    ∀ c ∈ layout.bracePad level, isBlank c = true := by
  cases layout with
  | compact => exact List.forall_mem_singleton.2 (by decide)
  | lines indent => exact isBlank_lineBreak hlayout level

/-- A separator is a comma between blanks. -/
theorem separator_eq (hlayout : layout.IsBlank) (level : ℕ) :
    ∃ blanks, layout.separator level = ',' :: blanks ∧ ∀ c ∈ blanks, isBlank c = true := by
  cases layout with
  | compact => exact ⟨[' '], rfl, List.forall_mem_singleton.2 (by decide)⟩
  | lines indent => exact ⟨_, rfl, isBlank_lineBreak hlayout level⟩

end Layout

/-! ## Literals -/

mutual

/-- The lexemes of a literal. -/
def lexemes : Document Scalar → List Lexeme
  | .leaf value => [value.lexeme]
  | .array items => .mark '[' :: (itemLexemes items ++ [.mark ']'])
  | .object fields => .mark '\x7b' :: (fieldLexemes fields ++ [.mark '\x7d'])

/-- The lexemes of items with commas between them. -/
def itemLexemes : List (Document Scalar) → List Lexeme
  | [] => []
  | item :: rest =>
      lexemes item ++ ((if rest.isEmpty then [] else [.mark ',']) ++ itemLexemes rest)

/-- The lexemes of fields with commas between them. -/
def fieldLexemes : List (String × Document Scalar) → List Lexeme
  | [] => []
  | (key, value) :: rest =>
      keyLexeme key :: .mark ':' ::
        (lexemes value ++ ((if rest.isEmpty then [] else [.mark ',']) ++ fieldLexemes rest))

end

/-- A literal all of whose scalars can be read back. -/
inductive Readable : Literal → Prop
  | leaf {value : Scalar} (h : value.Readable) : Readable (.leaf value)
  | array {items : List Literal} (h : ∀ item ∈ items, Readable item) : Readable (.array items)
  | object {fields : List (String × Literal)} (h : ∀ item ∈ fields.map Prod.snd, Readable item) :
      Readable (.object fields)

/-- What stands between brackets, with blanks around it, is taken apart together with them. -/
theorem lex_bracketed {opening closing : Char} (hopening : isMark opening = true)
    (hclosing : isMark closing = true) {before behind : List Char}
    (hbefore : ∀ c ∈ before, isBlank c = true) (hbehind : ∀ c ∈ behind, isBlank c = true)
    {chars : List Char → List Char} {inside : List Lexeme}
    (hinside : ∀ after, Apart after → lex (chars after) = (lex after).map (inside ++ ·))
    (after : List Char) :
    lex (opening :: (before ++ chars (behind ++ closing :: after))) =
      (lex after).map (.mark opening :: (inside ++ [.mark closing]) ++ ·) := by
  have happ : Apart (behind ++ closing :: after) :=
    apart_blanks hbehind (apart_cons (isWordChar_of_end (.inr (.inl hclosing))) after)
  rw [lex_mark hopening, lex_blanks hbefore, hinside _ happ, lex_blanks hbehind, lex_mark hclosing]
  simp [Function.comp_def]

section

variable {layout : Layout} (hlayout : layout.IsBlank)

/-- A literal is taken apart into its lexemes, at whatever level. -/
def TakenApart (layout : Layout) (d : Literal) : Prop :=
  ∀ level after, Apart after → lex (charsAt layout level d after) = (lex after).map (lexemes d ++ ·)

include hlayout

theorem lex_between (last : Bool) (level : ℕ) (rest : List Char) :
    lex ((if last then [] else layout.separator level) ++ rest) =
      (lex rest).map ((if last then [] else [.mark ',']) ++ ·) := by
  cases last with
  | true => simp
  | false =>
    obtain ⟨blanks, heq, hblanks⟩ := Layout.separator_eq hlayout level
    simp [heq, lex_mark (show isMark ',' = true by decide), lex_blanks hblanks]

theorem apart_between {α : Type} {rest : List α} (level : ℕ) {chars : List Char}
    (hlast : rest = [] → Apart chars) :
    Apart ((if rest.isEmpty then [] else layout.separator level) ++ chars) := by
  cases rest with
  | nil => exact hlast rfl
  | cons _ _ =>
    obtain ⟨blanks, heq, -⟩ := Layout.separator_eq hlayout level
    rw [List.isEmpty_cons, if_neg Bool.false_ne_true, heq]
    exact apart_cons (by decide) _

theorem lex_itemChars {items : List Literal} (hitems : ∀ item ∈ items, TakenApart layout item)
    (level : ℕ) {after : List Char} (hafter : Apart after) :
    lex (itemChars layout level items after) = (lex after).map (itemLexemes items ++ ·) := by
  induction items with
  | nil => simp [itemChars, itemLexemes]
  | cons item rest ih =>
    rw [List.forall_mem_cons] at hitems
    have happ : Apart ((if rest.isEmpty then [] else layout.separator level) ++
        itemChars layout level rest after) :=
      apart_between hlayout level (by rintro rfl; exact hafter)
    rw [itemChars, hitems.1 level _ happ, lex_between hlayout, ih hitems.2, itemLexemes]
    simp [Function.comp_def]

theorem lex_fieldChars {fields : List (String × Literal)}
    (hfields : ∀ item ∈ fields.map Prod.snd, TakenApart layout item)
    (level : ℕ) {after : List Char} (hafter : Apart after) :
    lex (fieldChars layout level fields after) = (lex after).map (fieldLexemes fields ++ ·) := by
  induction fields with
  | nil => simp [fieldChars, fieldLexemes]
  | cons field rest ih =>
    obtain ⟨key, value⟩ := field
    rw [List.map_cons, List.forall_mem_cons] at hfields
    have happ : Apart ((if rest.isEmpty then [] else layout.separator level) ++
        fieldChars layout level rest after) :=
      apart_between hlayout level (by rintro rfl; exact hafter)
    have hblank (rest : List Char) : lex (' ' :: rest) = lex rest :=
      lex_blanks (List.forall_mem_singleton.2 (by decide)) rest
    rw [fieldChars, lex_keyChars key (apart_cons (by decide) _), lex_mark (by decide), hblank,
      hfields.1 level _ happ, lex_between hlayout, ih hfields.2, fieldLexemes]
    simp [Function.comp_def]

/-- A literal is taken apart into the same lexemes in every layout. -/
theorem lex_charsAt {d : Literal} (hd : d.Readable) : TakenApart layout d := by
  induction hd with
  | leaf h =>
    intro level after hafter
    rw [charsAt, lex_scalar h hafter]
    rfl
  | @array items _ ih =>
    intro level after hafter
    rw [charsAt]
    split
    · next hempty =>
      rw [List.isEmpty_iff.1 hempty, lex_mark (by decide), lex_mark (by decide), Option.map_map]
      rfl
    · exact lex_bracketed (by decide) (by decide) (Layout.isBlank_lineBreak hlayout _)
        (Layout.isBlank_lineBreak hlayout _)
        (fun _ hafter => lex_itemChars hlayout ih _ hafter) after
  | @object fields _ ih =>
    intro level after hafter
    rw [charsAt]
    split
    · next hempty =>
      rw [List.isEmpty_iff.1 hempty, lex_mark (by decide), lex_mark (by decide), Option.map_map]
      rfl
    · exact lex_bracketed (by decide) (by decide) (Layout.isBlank_bracePad hlayout _)
        (Layout.isBlank_bracePad hlayout _)
        (fun _ hafter => lex_fieldChars hlayout ih _ hafter) after

end

end TypeDescription.Literal
