import TypeDescription.CommandLine.Describe
import TypeDescription.Proofs.Fixture.Queries
import TypeDescription.Proofs.Literal.ReadBack

/-!
# The two output formats

A run over all classes of a fixture goes well in both formats or in none, and both
write the same literals: `describe_formats`.  The source format writes a constant for
each class.  The JSON format writes one object with a field for each name, so of
classes that share their name it keeps the last one only, at the place of the first;
it holds every class just when no two share a name (`Listing.complete`).
-/

namespace TypeDescription

/-- Where the values have no repeated names only the names of the object are merged. -/
theorem Document.merge_object {α : Type} {P : α → Prop} {fields : List (String × Document α)}
    (hfields : ∀ field ∈ fields, field.2.Tidy P) :
    merge (.object fields) = .object (Table.ofList fields).entries := by
  have hmerged : (fields.map fun field => (field.1, field.2.merge)) = fields := by
    refine (List.map_congr_left fun field hfield => ?_).trans (List.map_id fields)
    rw [(hfields field hfield).merge_eq]
    rfl
  rw [merge, mergeFields_eq, hmerged]
  exact ofFields_eq fields

/-! ## The classes of a loaded fixture -/

namespace Program

/-- A loaded fixture declares no type twice. -/
theorem nodup_of_ofText {text : String} {p : Program} (h : ofText text = .ok p) :
    (p.types.map TypeEntry.id).Nodup := by
  unfold ofText ofRead at h
  split at h
  · obtain ⟨hwell, hsame, -⟩ := (ofFixture_concludes _).of_ok h
    exact hsame.types_eq ▸ hwell.ids_nodup
  · cases h

theorem ascending_eq_self {ids : List TypeId} (h : ids.Pairwise fun a b => a.value ≤ b.value) :
    ascending ids = ids :=
  List.mergeSort_of_pairwise (h.imp fun hle => decide_eq_true hle)

/-- The classes are listed in ascending order, none of them twice. -/
theorem pairwise_classes {p : Program} (h : (p.types.map TypeEntry.id).Nodup) :
    p.classes.Pairwise fun a b => a.value < b.value := by
  have hdistinct : p.classes.Nodup :=
    (List.mergeSort_perm _ _).nodup_iff.2 (h.sublist (List.filter_sublist.map _))
  refine ((pairwise_ascending _).and hdistinct).imp fun ⟨hle, hne⟩ => ?_
  exact UInt32.lt_of_le_of_ne hle fun heq => hne (congrArg TypeId.mk heq)

/-- The classes are the declarations that are no interfaces. -/
theorem mem_classes {p : Program} (h : (p.types.map TypeEntry.id).Nodup) {id : TypeId} :
    id ∈ p.classes ↔
      ∃ properties bases, p.shape? id = some (.declared false properties bases) := by
  rw [classes, ascending, List.mem_mergeSort, List.mem_map]
  constructor
  · rintro ⟨entry, hentry, rfl⟩
    obtain ⟨hmem, hshape⟩ := List.mem_filter.1 hentry
    rw [shape?, (type?_eq_some_iff h).2 ⟨hmem, rfl⟩]
    cases hs : entry.shape <;> simp_all
  · rintro ⟨properties, bases, hshape⟩
    obtain ⟨entry, hentry, hshape⟩ := Option.map_eq_some_iff.1 hshape
    obtain ⟨hmem, hid⟩ := (type?_eq_some_iff h).1 hentry
    exact ⟨entry, List.mem_filter.2 ⟨hmem, by rw [hshape]; rfl⟩, hid⟩

end Program

/-- A literal has no repeated names. -/
theorem Store.tidy_literal {store : Store} {limits : LiteralLimits} {n : NodeRef}
    {modifiers : Option Modifiers} {L : Literal}
    (hL : store.literal limits n modifiers = .ok L) : L.Tidy fun _ => True := by
  obtain ⟨v, g, t, k, hrun, hencoded, hwritten⟩ := LiteralGenerator.literal_eq_ok hL
  obtain ⟨hg, hbelow, _⟩ := (built_empty fun _ => False).of_make (c := ⟨store, n, _⟩) hrun
  exact (Heap.readBack_of_encoded (X := Unit) hg.proper hbelow hencoded hwritten).1

namespace CommandLine

/-! ## The literals of classes -/

/-- A class is listed under its name with the literal generated for it. -/
def Lists (p : Program) (o : Options) (id : TypeId) (entry : String × Literal) : Prop :=
  entry.1 = className p id ∧ (describeClass p o entry.1 id).1 = .ok entry.2

section Lists

variable {p : Program} {o : Options} {id : TypeId} {ids : List TypeId}
  {entry : String × Literal} {literals : List (String × Literal)}

/-- A run over classes lists each of them, or ends at the first that has no literal. -/
theorem describeClasses_eq_ok :
    (describeClasses p o ids).1 = .ok literals ↔ List.Forall₂ (Lists p o) ids literals := by
  induction ids generalizing literals with
  | nil => simp [describeClasses, eq_comm]
  | cons id rest ih =>
    rw [List.forall₂_cons_left_iff, describeClasses]
    rcases hone : describeClass p o (className p id) id with ⟨outcome, warnings⟩
    cases outcome with
    | error error =>
      constructor
      · exact fun h => nomatch h
      · rintro ⟨entry, others, ⟨hname, hentry⟩, _, rfl⟩
        rw [hname, hone] at hentry
        cases hentry
    | ok literal =>
      refine (map_eq_ok (m := (describeClasses p o rest).1)).trans ?_
      constructor
      · rintro ⟨others, hothers, rfl⟩
        exact ⟨_, others, ⟨rfl, by rw [hone]⟩, ih.1 hothers, rfl⟩
      · rintro ⟨⟨name, other⟩, others, ⟨rfl, hentry⟩, hothers, rfl⟩
        rw [hone] at hentry
        obtain rfl := Except.ok.inj hentry
        exact ⟨others, ih.2 hothers, rfl⟩

/-- A class is listed with one literal only. -/
theorem Lists.eq {entry' : String × Literal} (h : Lists p o id entry)
    (h' : Lists p o id entry') : entry = entry' := by
  have hname : entry.1 = entry'.1 := h.1.trans h'.1.symm
  have hliteral := h.2
  rw [hname, h'.2] at hliteral
  exact Prod.ext hname (Except.ok.inj hliteral).symm

/-- The literal of a class has no repeated names. -/
theorem Lists.tidy (h : Lists p o id entry) : entry.2.Tidy fun _ => True := by
  have hliteral := h.2
  simp only [describeClass] at hliteral
  split at hliteral
  · cases hliteral
  · exact Store.tidy_literal (mapError_eq_ok.1 hliteral)

theorem names_of_forall₂ (hall : List.Forall₂ (Lists p o) ids literals) :
    literals.map Prod.fst = ids.map (className p) := by
  induction hall with
  | nil => rfl
  | cons hentry _ ih => rw [List.map_cons, List.map_cons, hentry.1, ih]

/-- In descending order, the first entry of a name is that of the greatest class with
the name. -/
theorem find?_eq_some_iff_greatest (hall : List.Forall₂ (Lists p o) ids literals)
    (hdescending : ids.Pairwise fun a b => b.value < a.value) {name : String}
    {literal : Literal} :
    literals.find? (fun entry => entry.1 == name) = some (name, literal) ↔
      ∃ id ∈ ids, (∀ other ∈ ids, className p other = name → other.value ≤ id.value) ∧
        Lists p o id (name, literal) := by
  induction hall with
  | nil => simp
  | @cons id entry ids literals hentry hrest ih =>
    obtain ⟨hgreater, hdescending⟩ := List.pairwise_cons.1 hdescending
    by_cases hname : entry.1 = name
    · -- The first class has the name, so it is the greatest one.
      rw [List.find?_cons_of_pos (by simpa using hname)]
      constructor
      · intro heq
        obtain rfl := Option.some.inj heq
        refine ⟨id, List.mem_cons_self, fun other hother _ => ?_, hentry⟩
        rcases List.mem_cons.1 hother with rfl | hother
        · exact UInt32.le_refl _
        · exact UInt32.le_of_lt (hgreater other hother)
      · rintro ⟨other, hother, hmax, hlists⟩
        have hle := hmax id List.mem_cons_self (hentry.1.symm.trans hname)
        rcases List.mem_cons.1 hother with rfl | hother
        · rw [Lists.eq hentry hlists]
        · exact absurd (hgreater other hother) (UInt32.not_lt.2 hle)
    · have hskip : className p id ≠ name := fun h => hname (hentry.1.trans h)
      rw [List.find?_cons_of_neg (by simpa using hname), ih hdescending]
      constructor
      · rintro ⟨other, hother, hmax, hlists⟩
        refine ⟨other, List.mem_cons_of_mem _ hother, fun third hthird hthirdname => ?_, hlists⟩
        rcases List.mem_cons.1 hthird with rfl | hthird
        · exact absurd hthirdname hskip
        · exact hmax third hthird hthirdname
      · rintro ⟨other, hother, hmax, hlists⟩
        rcases List.mem_cons.1 hother with rfl | hother
        · exact absurd hlists.1.symm hskip
        · exact ⟨other, hother, fun third hthird => hmax third (List.mem_cons_of_mem _ hthird),
            hlists⟩

/-! ## Both formats -/

/-- The fields of the JSON object that lists the classes of a program, given all
literals that are made. -/
structure Listing (p : Program) (o : Options) (literals : List (String × Literal))
    (fields : List (String × Json)) : Prop where
  /-- Every class has its literal, in order. -/
  all : List.Forall₂ (Lists p o) p.classes literals
  /-- There is a field for each name, at the place of its first class. -/
  names : fields.map Prod.fst = (literals.map Prod.fst).eraseDups
  /-- The field of a name holds the literal of the last class with the name. -/
  last : ∀ name value, (name, value) ∈ fields ↔
    ∃ id ∈ p.classes, (∀ other ∈ p.classes, className p other = name → other.value ≤ id.value) ∧
      ∃ literal, Lists p o id (name, literal) ∧ value = literal.toJson
  /-- The object has a field for each class just when no two classes share a name. -/
  complete : fields = (literals.map fun entry => (entry.1, entry.2.toJson)) ↔
    (p.classes.map (className p)).Nodup

/-- What the JSON format writes for classes. -/
theorem jsonText_eq (hall : List.Forall₂ (Lists p o) ids literals) :
    jsonText literals = Json.pretty (.object (Table.ofList
      (literals.map fun entry => (entry.1, entry.2.toJson))).entries) ++ "\n" := by
  have htidy : ∀ field ∈ literals.map fun entry => (entry.1, entry.2.toJson),
      field.2.Tidy fun _ => True :=
    List.forall_mem_map.2 (forall_mem_of_forall₂ hall fun _ _ hlists => hlists.tidy.map)
  rw [← Document.merge_object htidy]
  rfl

/-- The JSON object that is written lists the classes. -/
theorem listing_of_forall₂ (hascending : p.classes.Pairwise fun a b => a.value < b.value)
    (hall : List.Forall₂ (Lists p o) p.classes literals) :
    ∃ fields, Listing p o literals fields ∧
      jsonText literals = Json.pretty (.object fields) ++ "\n" := by
  let written := literals.map fun entry => (entry.1, entry.2.toJson)
  have hwritten : written.map Prod.fst = literals.map Prod.fst := by
    simp [written, Function.comp_def]
  refine ⟨(Table.ofList written).entries, ⟨hall, ?_, fun name value => ?_, ?_⟩, jsonText_eq hall⟩
  · exact hwritten ▸ Table.keys_ofList written
  · have hlast : ∀ literal, literals.reverse.find? (fun entry => entry.1 == name) =
        some (name, literal) ↔ _ := fun literal =>
      find?_eq_some_iff_greatest (List.forall₂_reverse_iff.2 hall)
        (List.pairwise_reverse.2 hascending)
    simp only [List.mem_reverse] at hlast
    rw [← Table.get?_eq_some_iff, Table.get?_ofList, ← List.map_reverse, List.find?_map,
      Option.map_map, Option.map_eq_some_iff]
    constructor
    · rintro ⟨⟨key, literal⟩, hfind, rfl⟩
      obtain rfl : key = name := by simpa using List.find?_some hfind
      obtain ⟨id, hid, hmax, hlists⟩ := (hlast literal).1 hfind
      exact ⟨id, hid, hmax, literal, hlists, rfl⟩
    · rintro ⟨id, hid, hmax, literal, hlists, rfl⟩
      exact ⟨(name, literal), (hlast literal).2 ⟨id, hid, hmax, hlists⟩, rfl⟩
  · rw [← names_of_forall₂ hall, ← hwritten]
    constructor
    · intro heq
      have hnodup := (Table.ofList written).keys_nodup
      rwa [heq] at hnodup
    · exact Table.entries_ofList

/-- The literals do not depend on the format. -/
theorem describeClasses_congr {o' : Options} (hfixture : o.fixture = o'.fixture)
    (hdepth : o.maxDepth = o'.maxDepth) : describeClasses p o ids = describeClasses p o' ids := by
  have hone : ∀ name id, describeClass p o name id = describeClass p o' name id := by
    intro name id
    simp only [describeClass, literalLimits, hfixture, hdepth]
  induction ids with
  | nil => rfl
  | cons id rest ih => simp only [describeClasses, hone, ih]

/-- A run over all classes of a loaded fixture writes their literals. -/
theorem describe_loaded {content : String} (hload : Program.ofText content = .ok p)
    (format : Format) :
    describe { o with className := none, format := format } (.ok content) =
      ⟨(describeClasses p o p.classes).1.map fun literals =>
        match format with
        | .source => sourceText o.pretty literals
        | .json => jsonText literals, (describeClasses p o p.classes).2⟩ := by
  have hsame : describeClasses p { o with className := none, format := format } p.classes =
      describeClasses p o p.classes := describeClasses_congr rfl rfl
  simp only [describe, hload, describeProgram, chosenClasses, hsame]
  cases format <;> rfl

/-- Whichever format is chosen, a run over all classes of a fixture ends with the same
warnings, and with the same failure or with the same literals, one for each class in
ascending order.  The source format writes all of them.  The JSON format writes the last
one of each name. -/
theorem describe_formats (o : Options) (text : Except FileError String) :
    let source := describe { o with className := none, format := .source } text
    let json := describe { o with className := none, format := .json } text
    source.warnings = json.warnings ∧
      ((∃ failure, source.output = .error failure ∧ json.output = .error failure) ∨
        ∃ content p literals fields, text = .ok content ∧ Program.ofText content = .ok p ∧
          (p.classes.Pairwise fun a b => a.value < b.value) ∧
          (∀ id, id ∈ p.classes ↔
            ∃ properties bases, p.shape? id = some (.declared false properties bases)) ∧
          Listing p o literals fields ∧
          source.output = .ok (sourceText o.pretty literals) ∧
          json.output = .ok (Json.pretty (.object fields) ++ "\n")) := by
  intro source json
  cases text with
  | error error => exact ⟨rfl, .inl ⟨_, rfl, rfl⟩⟩
  | ok content =>
    cases hload : Program.ofText content with
    | error error =>
      simp only [source, json, describe, hload]
      exact ⟨trivial, .inl ⟨_, rfl, rfl⟩⟩
    | ok p =>
      simp only [source, json, describe_loaded hload]
      refine ⟨trivial, ?_⟩
      cases hrun : (describeClasses p o p.classes).1 with
      | error failure => exact .inl ⟨failure, rfl, rfl⟩
      | ok literals =>
        have hdistinct := Program.nodup_of_ofText hload
        obtain ⟨fields, hlisting, hjson⟩ :=
          listing_of_forall₂ (Program.pairwise_classes hdistinct) (describeClasses_eq_ok.1 hrun)
        exact .inr ⟨content, p, literals, fields, rfl, hload, Program.pairwise_classes hdistinct,
          fun _ => Program.mem_classes hdistinct, hlisting, rfl, congrArg Except.ok hjson⟩

end Lists

/-- The text of a fixture with two classes that share their name; the first has a
property. -/
def namesakes : String :=
  "\x7b\"types\":[" ++
    "\x7b\"id\":1,\"kind\":\"class\",\"symbol\":\"a.Foo\",\"properties\":[\"x\"]\x7d," ++
    "\x7b\"id\":2,\"kind\":\"class\",\"symbol\":\"b.Foo\"\x7d," ++
    "\x7b\"id\":3,\"kind\":\"string\"\x7d]," ++
    "\"symbols\":\x7b\"a.Foo\":\x7b\"kind\":\"class\"\x7d,\"b.Foo\":\x7b\"kind\":\"class\"\x7d," ++
    "\"x\":\x7b\"kind\":\"property\",\"type\":3\x7d\x7d\x7d"

/-- The source format writes both classes that share a name, the JSON format only the
second. -/
theorem json_omits_namesake :
    let o : Options := ⟨"classes.json", none, none, .json, false⟩
    let text (fields : List (String × Json)) := Json.pretty (.object fields) ++ "\n"
    ∃ p first second, Program.ofText namesakes = .ok p ∧ p.classes = [⟨1⟩, ⟨2⟩] ∧
      Lists p o ⟨1⟩ ("Foo", first) ∧ Lists p o ⟨2⟩ ("Foo", second) ∧
      (describe { o with format := .source } (.ok namesakes)).output =
        .ok (sourceText false [("Foo", first), ("Foo", second)]) ∧
      (describe o (.ok namesakes)).output = .ok (text [("Foo", second.toJson)]) ∧
      (describe o (.ok namesakes)).output ≠
        .ok (text [("Foo", first.toJson), ("Foo", second.toJson)]) := by
  intro o text
  have hmade : (do
      let p ← (Program.ofText namesakes).toOption
      let first ← (describeClass p o "Foo" ⟨1⟩).1.toOption
      let second ← (describeClass p o "Foo" ⟨2⟩).1.toOption
      some (p.types.map fun entry => (entry.id, entry.shape), className p ⟨1⟩, className p ⟨2⟩,
        decide (text [("Foo", second.toJson)] =
          text [("Foo", first.toJson), ("Foo", second.toJson)]))) =
      some ([(⟨1⟩, .declared false ["x"] []), (⟨2⟩, .declared false [] []), (⟨3⟩, .string)],
        "Foo", "Foo", false) := by
    decide +kernel
  simp only [Option.bind_eq_bind, Option.bind_eq_some_iff, toOption_eq_some_iff, Option.some.injEq,
    Prod.mk.injEq, decide_eq_false_iff_not] at hmade
  obtain ⟨p, hload, first, hfirst, second, hsecond, htypes, hname, hname', hdiffer⟩ := hmade
  have hclasses : p.classes = [⟨1⟩, ⟨2⟩] := by
    simp only [List.map_eq_cons_iff, List.map_eq_nil_iff, Prod.mk.injEq] at htypes
    obtain ⟨first, _, htypes, ⟨hid, hshape⟩, second, _, rfl, ⟨hid', hshape'⟩, third, _, rfl,
      ⟨_, hshape''⟩, rfl⟩ := htypes
    have hsorted : Program.ascending [⟨1⟩, ⟨2⟩] = [⟨1⟩, ⟨2⟩] :=
      Program.ascending_eq_self (by decide)
    simpa [Program.classes, htypes, hshape, hshape', hshape'', hid, hid'] using hsorted
  have hlists : List.Forall₂ (Lists p o) p.classes [("Foo", first), ("Foo", second)] :=
    hclasses ▸ .cons ⟨hname.symm, hfirst⟩ (.cons ⟨hname'.symm, hsecond⟩ .nil)
  have hrun := describeClasses_eq_ok.2 hlists
  have hsource : (describe { o with format := .source } (.ok namesakes)).output =
      .ok (sourceText false [("Foo", first), ("Foo", second)]) := by
    rw [describe_loaded (o := o) hload .source, hrun]
    rfl
  have hjson : (describe o (.ok namesakes)).output = .ok (text [("Foo", second.toJson)]) := by
    rw [describe_loaded (o := o) hload .json, hrun]
    exact congrArg Except.ok (jsonText_eq hlists)
  refine ⟨p, first, second, hload, hclasses, ⟨hname.symm, hfirst⟩, ⟨hname'.symm, hsecond⟩, hsource,
    hjson, fun heq => ?_⟩
  exact hdiffer (Except.ok.inj (hjson.symm.trans heq))

end CommandLine

end TypeDescription
