import TypeDescription.Json.Source
import TypeDescription.Proofs.Graph.Planting
import TypeDescription.Proofs.Literal.Lexing

/-!
# Strings within source text

A string is printed in quotes, and so is a key that cannot stand bare.  What stands between the
quotes is a JSON string that denotes what was to be written, it has neither control characters nor
line breaks, and each quote in it is escaped (`Literal.Embeds`).  So the first quote that ends it is
the closing one, on the same line and whatever follows.

Each character is escaped by itself, so a string is dealt with one character at a time.  Whether a
quote is escaped depends on how many backslashes stand before it: an escape ends in an even number
of them, and what follows counts its own (`trailingSlashes_append`).
-/

namespace TypeDescription

/-! ## Complete JSON texts -/

/-- A text of the grammar in quotes is scanned as a text, whatever follows. -/
theorem Json.scanText_quotes {text chars : List Char} (rest : List Char) (h : Quotes text chars) :
    scanText (text ++ '"' :: rest) = (.text (.ok (String.ofList chars)) none, some rest) := by
  rw [scanText, scanQuoted, unquote_quotes rest h, skipQuoted_quotes rest h]
  rfl

/-- A text of the grammar in quotes is a JSON text by itself. -/
theorem Json.parse_quotes {text chars : List Char} (h : Quotes text chars) :
    parse (String.ofList ('"' :: (text ++ ['"']))) = .ok (.string (String.ofList chars)) := by
  have hscan : scan (String.ofList ('"' :: (text ++ ['"']))) =
      (.text (.ok (String.ofList chars)) none, none) := by
    have hvalue (fuel : Nat) : scanValue (fuel + 1) ('"' :: (text ++ ['"'])) =
        scanText (text ++ ['"']) := rfl
    rw [scan, String.toList_ofList, hvalue, scanText_quotes [] h]
    rfl
  rw [parse, readText, hscan]
  rfl

namespace Literal

/-! ## Escapes -/

/-- A character that can stand within a line: no control character, and neither the line separator
nor the paragraph separator. -/
def Plain (c : Char) : Prop :=
  0x20 ≤ c.toNat ∧ c.toNat ≠ 0x7f ∧ c.toNat ≠ 0x2028 ∧ c.toNat ≠ 0x2029

instance : DecidablePred Plain := fun c =>
  inferInstanceAs
    (Decidable (0x20 ≤ c.toNat ∧ c.toNat ≠ 0x7f ∧ c.toNat ≠ 0x2028 ∧ c.toNat ≠ 0x2029))

/-- A character that stands for itself within a string. -/
structure Ordinary (c : Char) : Prop where
  plain : Plain c
  ne_quote : c ≠ '"'
  ne_slash : c ≠ '\\'

theorem ordinary_digit (n : Nat) : Ordinary (Nat.digitChar (n % 16)).toUpper := by
  have hall : ∀ i : Fin 16, Plain (Nat.digitChar i).toUpper ∧ (Nat.digitChar i).toUpper ≠ '"' ∧
      (Nat.digitChar i).toUpper ≠ '\\' := by decide
  obtain ⟨hplain, hquote, hslash⟩ := hall ⟨n % 16, Nat.mod_lt n (by decide)⟩
  exact ⟨hplain, hquote, hslash⟩

/-- How a character is escaped: with a backslash and a letter, with a backslash and a code, or not
at all. -/
inductive Escape : List Char → Prop
  | short {letter : Char} (h : Plain letter) : Escape ['\\', letter]
  | code {word : List Char} (h : ∀ c ∈ word, Ordinary c) : Escape ('\\' :: 'u' :: word)
  | none {c : Char} (h : Ordinary c) : Escape [c]

theorem escape_escapeChar (c : Char) : Escape (escapeChar c) := by
  unfold escapeChar
  split_ifs with hquote hslash hnewline hreturn htab hcode
  · exact .short (by decide)
  · exact .short (by decide)
  · exact .short (by decide)
  · exact .short (by decide)
  · exact .short (by decide)
  · refine .code fun d hd => ?_
    simp only [List.map_cons, List.map_nil, List.mem_cons, List.not_mem_nil, or_false] at hd
    rcases hd with rfl | rfl | rfl | rfl <;> exact ordinary_digit _
  · simp only [not_or, Nat.not_lt] at hcode
    exact .none ⟨hcode, hquote, hslash⟩

theorem Escape.plain {piece : List Char} (h : Escape piece) : ∀ c ∈ piece, Plain c := by
  have hslash : Plain '\\' := by decide
  have hu : Plain 'u' := by decide
  cases h with
  | short h => exact List.forall_mem_cons.2 ⟨hslash, List.forall_mem_singleton.2 h⟩
  | code h =>
    exact List.forall_mem_cons.2 ⟨hslash, List.forall_mem_cons.2 ⟨hu, fun c hc => (h c hc).plain⟩⟩
  | none h => exact List.forall_mem_singleton.2 h.plain

/-! ## Escaped quotes -/

/-- How many backslashes a text ends with. -/
def trailingSlashes (text : List Char) : Nat :=
  (text.reverse.takeWhile fun c => c == '\\').length

/-- After an even number of backslashes a text counts its own. -/
theorem trailingSlashes_append {piece : List Char} (h : trailingSlashes piece % 2 = 0)
    (text : List Char) : trailingSlashes (piece ++ text) % 2 = trailingSlashes text % 2 := by
  rw [trailingSlashes, List.reverse_append, List.takeWhile_append]
  split
  · next hall =>
    rw [List.length_append, ← hall]
    unfold trailingSlashes at h ⊢
    omega
  · rfl

theorem trailingSlashes_concat {c : Char} (h : c ≠ '\\') (text : List Char) :
    trailingSlashes (text ++ [c]) = 0 := by
  simp [trailingSlashes, h]

theorem Escape.even_trailingSlashes {piece : List Char} (h : Escape piece) :
    trailingSlashes piece % 2 = 0 := by
  cases h with
  | @short letter =>
    by_cases hletter : letter = '\\'
    · rw [hletter]
      rfl
    · exact congrArg (· % 2) (trailingSlashes_concat hletter ['\\'])
  | @code word h =>
    cases word using List.reverseRecOn with
    | nil => rfl
    | append_singleton word c =>
      have hc : c ≠ '\\' := (h c (List.mem_append_right _ List.mem_cons_self)).ne_slash
      exact congrArg (· % 2) (trailingSlashes_concat hc ('\\' :: 'u' :: word))
  | none h => exact congrArg (· % 2) (trailingSlashes_concat h.ne_slash [])

/-- A quote within an escape stands right after the backslash. -/
theorem Escape.odd_trailingSlashes {before after : List Char}
    (h : Escape (before ++ '"' :: after)) : trailingSlashes before % 2 = 1 := by
  generalize heq : before ++ '"' :: after = piece at h
  have hmem : '"' ∈ piece := heq ▸ List.mem_append_right before List.mem_cons_self
  cases h with
  | short =>
    match before, heq with
    | [], heq => cases heq
    | [_], heq =>
      cases heq
      rfl
    | _ :: _ :: _, heq => simp at heq
  | code h =>
    simp only [List.mem_cons] at hmem
    rcases hmem with hmem | hmem | hmem
    · cases hmem
    · cases hmem
    · exact absurd rfl (h _ hmem).ne_quote
  | none h => exact absurd (List.mem_singleton.1 hmem).symm h.ne_quote

/-- Each quote in an escaped text is escaped. -/
theorem odd_trailingSlashes_of_escaped {chars before after : List Char}
    (h : chars.flatMap escapeChar = before ++ '"' :: after) :
    trailingSlashes before % 2 = 1 := by
  induction chars generalizing before with
  | nil => simp at h
  | cons c chars ih =>
    have hc : Escape (escapeChar c) := escape_escapeChar c
    rw [List.flatMap_cons, List.append_eq_append_iff] at h
    rcases h with ⟨before', rfl, h⟩ | ⟨after', heq, h⟩
    · rw [trailingSlashes_append hc.even_trailingSlashes]
      exact ih h
    · cases after' with
      | nil =>
        rw [List.append_nil] at heq
        have hnil : trailingSlashes [] % 2 = 1 := ih h.symm
        cases hnil
      | cons d after' =>
        obtain ⟨rfl, -⟩ := List.cons.inj h
        exact (heq ▸ hc).odd_trailingSlashes

/-! ## The end of a string -/

/-- What follows a string of a source text after its opening quote: a backslash takes the next
character along, the first quote that is not taken along ends the string, and a string does not go
beyond its line. -/
def afterString? : List Char → Option (List Char)
  | [] => none
  | '"' :: rest => some rest
  | '\\' :: c :: rest => if c ∈ ['\n', '\r', '\u2028', '\u2029'] then none else afterString? rest
  | c :: rest => if c ∈ ['\n', '\r', '\u2028', '\u2029'] then none else afterString? rest

theorem Plain.notMem_breaks {c : Char} (h : Plain c) : c ∉ ['\n', '\r', '\u2028', '\u2029'] := by
  intro hmem
  simp only [List.mem_cons, List.not_mem_nil, or_false] at hmem
  rcases hmem with rfl | rfl | rfl | rfl <;> exact absurd h (by decide)

theorem afterString?_ordinary {c : Char} (h : Ordinary c) (rest : List Char) :
    afterString? (c :: rest) = afterString? rest := by
  rw [afterString?]
  · rw [if_neg h.plain.notMem_breaks]
  · exact h.ne_quote
  · intro d r hc
    exact absurd hc h.ne_slash

theorem afterString?_taken {c : Char} (h : Plain c) (rest : List Char) :
    afterString? ('\\' :: c :: rest) = afterString? rest := by
  rw [afterString?, if_neg h.notMem_breaks]

theorem Escape.afterString?_append {piece : List Char} (h : Escape piece) (rest : List Char) :
    afterString? (piece ++ rest) = afterString? rest := by
  cases h with
  | short h => exact afterString?_taken h rest
  | @code word h =>
    simp only [List.cons_append]
    rw [afterString?_taken (by decide)]
    induction word with
    | nil => rfl
    | cons c word ih =>
      rw [List.forall_mem_cons] at h
      rw [List.cons_append, afterString?_ordinary h.1, ih h.2]
  | none h => exact afterString?_ordinary h rest

/-- An escaped text is passed over as a whole. -/
theorem afterString?_escaped (chars rest : List Char) :
    afterString? (chars.flatMap escapeChar ++ rest) = afterString? rest := by
  induction chars with
  | nil => rfl
  | cons c chars ih =>
    rw [List.flatMap_cons, List.append_assoc, (escape_escapeChar c).afterString?_append, ih]

/-- A text that, between quotes, can stand for a string in JSON and in a source text. -/
structure Embeds (text : List Char) (s : String) : Prop where
  /-- It is a text of the grammar, and denotes the string. -/
  quotes : Json.Quotes text s.toList
  /-- In quotes it is one JSON text, which is the string. -/
  parse_eq : Json.parse (String.ofList ('"' :: (text ++ ['"']))) = .ok (.string s)
  /-- It is read as the string whatever follows. -/
  unquote_eq : ∀ rest, Json.unquote (text ++ '"' :: rest) = .ok (s.toList, rest)
  plain : ∀ c ∈ text, Plain c
  /-- Each quote in it stands behind an odd number of backslashes. -/
  escaped : ∀ before after, text = before ++ '"' :: after → trailingSlashes before % 2 = 1
  /-- In a source text the string ends with the closing quote, and on its line. -/
  afterString?_eq : ∀ rest, afterString? (text ++ '"' :: rest) = some rest

theorem embeds_escaped (s : String) : Embeds (s.toList.flatMap escapeChar) s := by
  have hquotes : Json.Quotes (s.toList.flatMap escapeChar) s.toList := quotes_escaped s.toList
  constructor
  case quotes => exact hquotes
  case parse_eq => rw [Json.parse_quotes hquotes, String.ofList_toList]
  case unquote_eq => exact fun rest => Json.unquote_quotes rest hquotes
  case plain =>
    intro c hc
    obtain ⟨d, -, hc⟩ := List.mem_flatMap.1 hc
    exact (escape_escapeChar d).plain c hc
  case escaped => exact fun before after h => odd_trailingSlashes_of_escaped h
  case afterString?_eq =>
    intro rest
    rw [afterString?_escaped]
    rfl

/-! ## Strings of a literal -/

/-- What a literal has in quotes: its string values, and its keys unless they are printed bare. -/
inductive HasQuoted : Literal → String → Prop
  | value (s : String) : HasQuoted (.leaf (.string s)) s
  | item {items : List Literal} {item : Literal} {s : String} (hitem : item ∈ items)
      (h : HasQuoted item s) : HasQuoted (.array items) s
  | key {fields : List (String × Literal)} {field : String × Literal} (hfield : field ∈ fields)
      (hbare : keyChars field.1 ≠ field.1.toList) : HasQuoted (.object fields) field.1
  | field {fields : List (String × Literal)} {field : String × Literal} {s : String}
      (hfield : field ∈ fields) (h : HasQuoted field.2 s) : HasQuoted (.object fields) s

theorem keyChars_of_ne {key : String} (h : keyChars key ≠ key.toList) :
    keyChars key = quoteChars key.toList := by
  unfold keyChars at h ⊢
  split at h
  · exact absurd rfl h
  · next hname => rw [if_neg hname]

section Print

variable {layout : Layout} {level : ℕ} {after : List Char} {items : List Literal}
  {fields : List (String × Literal)}

theorem suffix_itemChars
    (hitems : ∀ item ∈ items, ∀ level after, after <:+ charsAt layout level item after) :
    after <:+ itemChars layout level items after := by
  induction items with
  | nil => exact List.suffix_refl after
  | cons item items ih =>
    rw [List.forall_mem_cons] at hitems
    rw [itemChars]
    exact ((ih hitems.2).trans (List.suffix_append _ _)).trans (hitems.1 level _)

theorem suffix_field (key : String) (text : List Char) :
    text <:+ keyChars key ++ ':' :: ' ' :: text :=
  ((List.suffix_cons ' ' text).trans (List.suffix_cons ':' _)).trans (List.suffix_append _ _)

theorem suffix_fieldChars
    (hfields : ∀ item ∈ fields.map Prod.snd, ∀ level after,
      after <:+ charsAt layout level item after) :
    after <:+ fieldChars layout level fields after := by
  induction fields with
  | nil => exact List.suffix_refl after
  | cons field fields ih =>
    obtain ⟨key, value⟩ := field
    rw [List.map_cons, List.forall_mem_cons] at hfields
    rw [fieldChars]
    refine List.IsSuffix.trans ?_ (suffix_field key _)
    exact ((ih hfields.2).trans (List.suffix_append _ _)).trans (hfields.1 level _)

theorem itemChars_suffix_charsAt (h : items ≠ []) :
    itemChars layout (level + 1) items (layout.lineBreak level ++ ']' :: after) <:+
      charsAt layout level (.array items) after := by
  rw [charsAt, if_neg (by simpa using h)]
  exact (List.suffix_append _ _).trans (List.suffix_cons _ _)

theorem fieldChars_suffix_charsAt (h : fields ≠ []) :
    fieldChars layout (level + 1) fields (layout.bracePad level ++ '\x7d' :: after) <:+
      charsAt layout level (.object fields) after := by
  rw [charsAt, if_neg (by simpa using h)]
  exact (List.suffix_append _ _).trans (List.suffix_cons _ _)

/-- A literal is printed before what follows it. -/
theorem suffix_charsAt (layout : Layout) (level : ℕ) (d : Literal) (after : List Char) :
    after <:+ charsAt layout level d after := by
  induction d using Document.induct generalizing level after with
  | leaf value => exact List.suffix_append _ _
  | array items ih =>
    by_cases h : items = []
    · rw [h]
      exact List.suffix_append ['[', ']'] after
    · have hclose : after <:+ layout.lineBreak level ++ ']' :: after :=
        (List.suffix_cons _ _).trans (List.suffix_append _ _)
      exact (hclose.trans (suffix_itemChars ih)).trans (itemChars_suffix_charsAt h)
  | object fields ih =>
    by_cases h : fields = []
    · rw [h]
      exact List.suffix_append ['\x7b', '\x7d'] after
    · have hclose : after <:+ layout.bracePad level ++ '\x7d' :: after :=
        (List.suffix_cons _ _).trans (List.suffix_append _ _)
      exact (hclose.trans (suffix_fieldChars ih)).trans (fieldChars_suffix_charsAt h)

theorem exists_suffix_itemChars {item : Literal} (h : item ∈ items) :
    ∃ tail, charsAt layout level item tail <:+ itemChars layout level items after := by
  induction items with
  | nil => cases h
  | cons head items ih =>
    rw [itemChars]
    rcases List.mem_cons.1 h with rfl | h
    · exact ⟨_, List.suffix_refl _⟩
    · obtain ⟨tail, htail⟩ := ih h
      exact ⟨tail, (htail.trans (List.suffix_append _ _)).trans (suffix_charsAt layout level _ _)⟩

theorem exists_suffix_fieldChars {field : String × Literal} (h : field ∈ fields) :
    ∃ tail, keyChars field.1 ++ ':' :: ' ' :: charsAt layout level field.2 tail <:+
      fieldChars layout level fields after := by
  induction fields with
  | nil => cases h
  | cons head fields ih =>
    obtain ⟨key, value⟩ := head
    rw [fieldChars]
    rcases List.mem_cons.1 h with rfl | h
    · exact ⟨_, List.suffix_refl _⟩
    · obtain ⟨tail, htail⟩ := ih h
      refine ⟨tail, List.IsSuffix.trans ?_ (suffix_field key _)⟩
      exact (htail.trans (List.suffix_append _ _)).trans (suffix_charsAt layout level _ _)

/-- Each item of an array is printed in it, a level further in and before something. -/
theorem exists_suffix_charsAt_array {item : Literal} (h : item ∈ items) :
    ∃ tail, charsAt layout (level + 1) item tail <:+ charsAt layout level (.array items) after := by
  obtain ⟨tail, htail⟩ := exists_suffix_itemChars h
  exact ⟨tail, htail.trans (itemChars_suffix_charsAt (List.ne_nil_of_mem h))⟩

/-- Each field of an object is printed in it, the key before the value. -/
theorem exists_suffix_charsAt_object {field : String × Literal} (h : field ∈ fields) :
    ∃ tail, keyChars field.1 ++ ':' :: ' ' :: charsAt layout (level + 1) field.2 tail <:+
      charsAt layout level (.object fields) after := by
  obtain ⟨tail, htail⟩ := exists_suffix_fieldChars h
  exact ⟨tail, htail.trans (fieldChars_suffix_charsAt (List.ne_nil_of_mem h))⟩

/-- What a literal has in quotes is printed in quotes. -/
theorem HasQuoted.infix_charsAt {d : Literal} {s : String} (h : HasQuoted d s) (level : ℕ)
    (after : List Char) : quoteChars s.toList <:+: charsAt layout level d after := by
  induction h generalizing level after with
  | value s => exact (List.prefix_append _ _).isInfix
  | @item items item s hitem _ ih =>
    obtain ⟨tail, htail⟩ := exists_suffix_charsAt_array hitem
    have hvalue : quoteChars s.toList <:+: charsAt layout (level + 1) item tail :=
      ih (level + 1) tail
    exact hvalue.trans htail.isInfix
  | key hfield hbare =>
    obtain ⟨tail, htail⟩ := exists_suffix_charsAt_object hfield
    rw [keyChars_of_ne hbare] at htail
    exact (List.prefix_append _ _).isInfix.trans htail.isInfix
  | @field fields field s hfield _ ih =>
    obtain ⟨tail, htail⟩ := exists_suffix_charsAt_object hfield
    have hvalue : quoteChars s.toList <:+: charsAt layout (level + 1) field.2 tail :=
      ih (level + 1) tail
    exact hvalue.trans ((suffix_field field.1 _).trans htail).isInfix

end Print

/-- Every string is escaped to a text that can stand between quotes, and a printed literal has each
of its strings so, and each of its keys that does not stand bare. -/
theorem print_embeds (layout : Layout) (d : Literal) (s : String) :
    Embeds (s.toList.flatMap escapeChar) s ∧
      (HasQuoted d s → quoteChars s.toList <:+: (print layout d).toList) := by
  refine ⟨embeds_escaped s, fun h => ?_⟩
  rw [print, String.toList_ofList]
  exact h.infix_charsAt 0 []

theorem print_embeds_breakout :
    let d : Literal := .object [("a\"; b", .array [.leaf (.string "\\\"\n\u2028\x7f")])]
    (HasQuoted d "a\"; b" ∧ HasQuoted d "\\\"\n\u2028\x7f") ∧
      print .compact d = "\x7b \"a\\\"; b\": [\"\\\\\\\"\\n\\u2028\\u007F\"] \x7d" ∧
      quoteChars "a\"; b".toList <:+: (print .pretty d).toList ∧
      quoteChars "\\\"\n\u2028\x7f".toList <:+: (print .pretty d).toList ∧
      Embeds "\\\\\\\"\\n\\u2028\\u007F".toList "\\\"\n\u2028\x7f" := by
  intro d
  have hkey : HasQuoted d "a\"; b" := .key List.mem_cons_self (by decide)
  have hvalue : HasQuoted d "\\\"\n\u2028\x7f" :=
    .field List.mem_cons_self (.item List.mem_cons_self (.value _))
  refine ⟨⟨hkey, hvalue⟩, by decide +kernel, ?_, ?_, ?_⟩
  · exact (print_embeds .pretty d _).2 hkey
  · exact (print_embeds .pretty d _).2 hvalue
  · exact (print_embeds .pretty d "\\\"\n\u2028\x7f").1

end Literal

end TypeDescription
