import TypeDescription.Proofs.Graph.Interchange
import TypeDescription.Proofs.Literal.Lexing

/-!
# Printed literals are read

`Literal.parse?` reads a literal from its text: it takes the text apart and lets a machine run over
the lexemes.  The machine keeps the containers that are open in a `Context`, the literal with a gap
where the next value stands.

What is read is the literal that was printed, in either layout (`parse?_print`), so that literals
that print alike are alike.
-/

namespace TypeDescription.Literal

/-! ## Scalars -/

/-- The integer of any size that a word stands for. -/
def readBigInt? (word : List Char) : Option Scalar :=
  let digits := word.dropLast
  if word.getLast? = some 'n' ∧ digits ≠ [] ∧ digits.all Char.isDigit then
    some (.bigInt (String.ofList digits))
  else none

/-- The scalar that a word stands for. -/
def readWord? (word : List Char) : Option Scalar :=
  match Double.read? word with
  | some x => some (.number x)
  | none =>
      if word = "true".toList then some (.boolean true)
      else if word = "false".toList then some (.boolean false)
      else if word = "undefined".toList then some .undefined
      else if word = "null".toList then some .null
      else readBigInt? word

/-- The scalar that a lexeme stands for. -/
def Lexeme.scalar? : Lexeme → Option Scalar
  | mark _ => none
  | text s => some (.string s)
  | word chars => readWord? chars

/-- The name that a lexeme stands for. -/
def Lexeme.name? : Lexeme → Option String
  | mark _ => none
  | text s => some s
  | word chars => some (String.ofList chars)

/-! ## Containers -/

/-- What is open around a value, with what was read of it, the last first. -/
inductive Context where
  | root
  | item (taken : List Literal) (outer : Context)
  | field (taken : List (String × Literal)) (name : String) (outer : Context)

/-- How far a literal has been read. -/
inductive Progress where
  /-- A value is due. -/
  | value (context : Context)
  /-- A name is due. -/
  | name (taken : List (String × Literal)) (outer : Context)
  /-- A colon is due. -/
  | colon (taken : List (String × Literal)) (name : String) (outer : Context)
  /-- A value is read. -/
  | done (value : Literal) (context : Context)

/-- Read one lexeme.  A comma may stand after the last item or field. -/
def step : Progress → Lexeme → Option Progress
  | .value context, .mark '[' => some (.value (.item [] context))
  | .value context, .mark '\x7b' => some (.name [] context)
  | .value (.item taken outer), .mark ']' => some (.done (.array taken.reverse) outer)
  | .value context, lexeme => lexeme.scalar?.map fun scalar => .done (.leaf scalar) context
  | .name taken outer, .mark '\x7d' => some (.done (.object taken.reverse) outer)
  | .name taken outer, lexeme => lexeme.name?.map fun name => .colon taken name outer
  | .colon taken name outer, .mark ':' => some (.value (.field taken name outer))
  | .done value (.item taken outer), .mark ',' => some (.value (.item (value :: taken) outer))
  | .done value (.item taken outer), .mark ']' =>
      some (.done (.array (value :: taken).reverse) outer)
  | .done value (.field taken name outer), .mark ',' =>
      some (.name ((name, value) :: taken) outer)
  | .done value (.field taken name outer), .mark '\x7d' =>
      some (.done (.object ((name, value) :: taken).reverse) outer)
  | _, _ => none

/-- Read lexemes one after the other. -/
def run (lexemes : List Lexeme) (progress : Progress) : Option Progress :=
  lexemes.foldlM step progress

/-- Read a literal. -/
def parse? (text : String) : Option Literal := do
  match ← run (← lex text.toList) (.value .root) with
  | .done value .root => some value
  | _ => none

/-! ## Scalars read back -/

/-- What is read for a scalar: the scalar, or the one NaN. -/
def Scalar.canonical : Scalar → Scalar
  | number x => number (if x.isNaN then Double.nan else x)
  | value => value

/-- What is read for a literal. -/
def canonical (d : Literal) : Literal :=
  d.map Scalar.canonical

theorem readBigInt?_digits {digits : String} (hne : digits ≠ "")
    (hdigits : ∀ c ∈ digits.toList, c.isDigit = true) :
    readBigInt? (digits.toList ++ ['n']) = some (.bigInt digits) := by
  have hne' : digits.toList ≠ [] := by simpa using hne
  simp [readBigInt?, hne', List.all_eq_true.2 hdigits]

theorem read?_digits_n {digits : List Char} (hne : digits ≠ [])
    (hdigits : ∀ c ∈ digits, c.isDigit = true) : Double.read? (digits ++ ['n']) = none := by
  have hspan : (digits ++ ['n']).span Char.isDigit = (digits, ['n']) :=
    span_append hdigits (by rintro c ⟨⟩; decide)
  have hnone : Decimal.read? (digits ++ ['n']) = none := by
    simp [Decimal.read?, hspan, hne, Decimal.readExponent?, -List.span_eq_takeWhile_dropWhile]
  cases digits with
  | nil => exact absurd rfl hne
  | cons c digits =>
    rw [List.forall_mem_cons] at hdigits
    have hread := Double.read?_of_isDigit hdigits.1 false (digits ++ ['n'])
    rw [if_neg Bool.false_ne_true] at hread
    rw [List.cons_append] at hnone ⊢
    rw [hread, hnone, Option.map_none]

/-- The lexeme of a scalar stands for it. -/
theorem scalar?_lexeme {value : Scalar} (h : value.Readable) :
    value.lexeme.scalar? = some value.canonical := by
  cases h with
  | string s => rfl
  | @number x hx =>
    have hread : readWord? (NumberStyle.source.text x).toList =
        some (.number (if x.isNaN then .nan else x)) := by
      simp only [readWord?, Double.read?_text hx]
    exact hread
  | boolean b => cases b <;> decide +kernel
  | undefined => decide +kernel
  | null => decide +kernel
  | @bigInt digits hne hdigits =>
    have hread : readWord? (digits.toList ++ ['n']) = some (.bigInt digits) := by
      have hne' : digits.toList ≠ [] := by simpa using hne
      have hend {word : List Char} (hword : word.getLast? ≠ some 'n') :
          digits.toList ++ ['n'] ≠ word := by
        rintro rfl
        simp at hword
      simp only [readWord?, read?_digits_n hne' hdigits]
      rw [if_neg (hend (by decide)), if_neg (hend (by decide)), if_neg (hend (by decide)),
        if_neg (hend (by decide)), readBigInt?_digits hne hdigits]
    exact hread

theorem name?_keyLexeme (key : String) : (keyLexeme key).name? = some key := by
  rw [keyLexeme]
  split
  · exact congrArg some String.ofList_toList
  · rfl

/-! ## Literals read back -/

theorem step_scalar {lexeme : Lexeme} {scalar : Scalar} (h : lexeme.scalar? = some scalar)
    (context : Context) : step (.value context) lexeme = some (.done (.leaf scalar) context) := by
  have hmap : step (.value context) lexeme =
      lexeme.scalar?.map fun scalar => .done (.leaf scalar) context := by
    cases lexeme with
    | mark c => cases h
    | _ => cases context <;> rfl
  rw [hmap, h, Option.map_some]

theorem step_name {lexeme : Lexeme} {name : String} (h : lexeme.name? = some name)
    (taken : List (String × Literal)) (outer : Context) :
    step (.name taken outer) lexeme = some (.colon taken name outer) := by
  have hmap : step (.name taken outer) lexeme =
      lexeme.name?.map fun name => .colon taken name outer := by
    cases lexeme with
    | mark c => cases h
    | _ => rfl
  rw [hmap, h, Option.map_some]

theorem run_cons {progress progress' : Progress} {lexeme : Lexeme}
    (h : step progress lexeme = some progress') (rest : List Lexeme) :
    run (lexeme :: rest) progress = run rest progress' := by
  rw [run, List.foldlM_cons, h]
  rfl

theorem run_append {progress progress' : Progress} {lexemes : List Lexeme}
    (h : run lexemes progress = some progress') (rest : List Lexeme) :
    run (lexemes ++ rest) progress = run rest progress' := by
  rw [run, List.foldlM_append, ← run, h]
  rfl

/-- Whatever is open around it, a literal is read from its lexemes. -/
def IsRead (d : Literal) : Prop :=
  ∀ context, run (lexemes d) (.value context) = some (.done d.canonical context)

/-- The items of an array are read one after the other, and make an array with those before. -/
theorem run_itemLexemes {items : List Literal} (hitems : ∀ item ∈ items, IsRead item)
    (taken : List Literal) (outer : Context) :
    run (itemLexemes items ++ [.mark ']']) (.value (.item taken outer)) =
      some (.done (.array (taken.reverse ++ items.map canonical)) outer) := by
  induction items generalizing taken with
  | nil =>
    rw [List.map_nil, List.append_nil]
    rfl
  | cons item rest ih =>
    rw [List.forall_mem_cons] at hitems
    rw [itemLexemes, List.append_assoc, run_append (hitems.1 _)]
    cases rest with
    | nil =>
      rw [List.map_singleton, ← List.reverse_cons]
      rfl
    | cons next rest =>
      have hrest := ih hitems.2 (item.canonical :: taken)
      rw [List.reverse_cons, List.append_assoc] at hrest
      exact hrest

/-- The fields of an object are read one after the other, and make an object with those before. -/
theorem run_fieldLexemes {fields : List (String × Literal)}
    (hfields : ∀ item ∈ fields.map Prod.snd, IsRead item) (taken : List (String × Literal))
    (outer : Context) :
    run (fieldLexemes fields ++ [.mark '\x7d']) (.name taken outer) =
      some (.done (.object (taken.reverse ++ fields.map fun (name, d) => (name, d.canonical)))
        outer) := by
  induction fields generalizing taken with
  | nil =>
    rw [List.map_nil, List.append_nil]
    rfl
  | cons field rest ih =>
    obtain ⟨name, value⟩ := field
    rw [List.map_cons, List.forall_mem_cons] at hfields
    have hcolon : step (.colon taken name outer) (.mark ':') =
      some (.value (.field taken name outer)) := rfl
    rw [fieldLexemes, List.cons_append, run_cons (step_name (name?_keyLexeme name) _ _),
      List.cons_append, run_cons hcolon, List.append_assoc, run_append (hfields.1 _)]
    cases rest with
    | nil =>
      rw [List.map_singleton, ← List.reverse_cons]
      rfl
    | cons next rest =>
      have hrest := ih hfields.2 ((name, value.canonical) :: taken)
      rw [List.reverse_cons, List.append_assoc] at hrest
      exact hrest

theorem isRead_of_readable {d : Literal} (h : d.Readable) : IsRead d := by
  induction h with
  | leaf h => exact fun context => run_cons (step_scalar (scalar?_lexeme h) context) []
  | @array items _ ih =>
    intro context
    have hitems := run_itemLexemes ih [] context
    rw [canonical, Document.map, Document.mapItems_eq]
    exact hitems
  | @object fields _ ih =>
    intro context
    have hfields := run_fieldLexemes ih [] context
    rw [canonical, Document.map, Document.mapFields_eq]
    exact hfields

theorem parse?_of_isBlank {layout : Layout} (hlayout : layout.IsBlank) {d : Literal}
    (hd : d.Readable) : parse? (print layout d) = some d.canonical := by
  have hlex : lex (charsAt layout 0 d []) = some (lexemes d) := by
    rw [lex_charsAt hlayout hd 0 [] (by rintro c ⟨⟩), lex_nil, Option.map_some, List.append_nil]
  simp [parse?, print, hlex, isRead_of_readable hd .root]

/-- A printed literal is read back, whichever of the two layouts it has, and so literals that print
alike, each in either layout, are the same up to the bits of a NaN. -/
theorem parse?_print {n m : Literal} (hn : n.Readable) (hm : m.Readable) :
    (∀ layout ∈ [Layout.compact, .pretty], parse? (print layout n) = some n.canonical) ∧
      ∀ layout ∈ [Layout.compact, .pretty], ∀ layout' ∈ [Layout.compact, .pretty],
        print layout n = print layout' m → n.canonical = m.canonical := by
  have hpretty : Layout.pretty.IsBlank :=
    List.all_eq_true.1 (by decide : "    ".toList.all isBlank = true)
  have hblank : ∀ layout ∈ [Layout.compact, .pretty], layout.IsBlank :=
    List.forall_mem_cons.2 ⟨trivial, List.forall_mem_singleton.2 hpretty⟩
  refine ⟨fun layout hlayout => parse?_of_isBlank (hblank layout hlayout) hn,
    fun layout hlayout layout' hlayout' heq => ?_⟩
  have hread := parse?_of_isBlank (hblank layout hlayout) hn
  rw [heq, parse?_of_isBlank (hblank layout' hlayout') hm] at hread
  exact (Option.some.inj hread).symm

/-- A literal with keys and texts that could be taken for something else, and with a NaN. -/
def tangled (nan : Double) : Literal :=
  .object [
    ("undefined", .array [.leaf (.string "undefined"), .leaf .undefined, .leaf .null]),
    ("", .object []),
    ("a b", .array [.array [], .leaf (.bigInt "0042"), .leaf (.number nan)]),
    ("a b", .leaf (.string "\"], \\\n\x7d\u2028"))]

theorem readable_tangled {nan : Double} (h : nan ≠ Double.zero.neg) : (tangled nan).Readable := by
  refine .object fun item hitem => ?_
  simp only [List.map_cons, List.map_nil, List.mem_cons, List.not_mem_nil, or_false] at hitem
  rcases hitem with rfl | rfl | rfl | rfl
  · refine .array fun item hitem => ?_
    simp only [List.mem_cons, List.not_mem_nil, or_false] at hitem
    rcases hitem with rfl | rfl | rfl
    · exact .leaf (.string _)
    · exact .leaf .undefined
    · exact .leaf .null
  · exact .object (List.forall_mem_nil _)
  · refine .array fun item hitem => ?_
    simp only [List.mem_cons, List.not_mem_nil, or_false] at hitem
    rcases hitem with rfl | rfl | rfl
    · exact .array (List.forall_mem_nil _)
    · exact .leaf (.bigInt (by decide) (List.all_eq_true.1 (by decide)))
    · exact .leaf (.number h)
  · exact .leaf (.string _)

theorem parse?_print_tangled :
    print .compact (tangled .nan) =
      "\x7b undefined: [\"undefined\", undefined, null], \"\": \x7b\x7d, " ++
        "\"a b\": [[], 0042n, NaN], \"a b\": \"\\\"], \\\\\\n\x7d\\u2028\" \x7d" ∧
    parse? (print .pretty (tangled Double.nan.neg)) = some (tangled .nan) ∧
    (tangled Double.nan.neg).canonical = (tangled .nan).canonical := by
  have h : (tangled .nan).Readable := readable_tangled (by decide)
  have h' : (tangled Double.nan.neg).Readable := readable_tangled (by decide)
  have heq : print .compact (tangled Double.nan.neg) = print .compact (tangled .nan) := by
    decide +kernel
  obtain ⟨hread, hsame⟩ := parse?_print h' h
  exact ⟨by decide +kernel, hread .pretty (by simp),
    hsame .compact (by simp) .compact (by simp) heq⟩

end TypeDescription.Literal
