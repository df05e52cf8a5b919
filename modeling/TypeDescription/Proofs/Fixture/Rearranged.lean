import TypeDescription.Proofs.Fixture.Queries

/-!
# Fixtures in another order

`Fixture.Rearranges` says of two fixtures that they list the same types and the same symbols, each
in an order of its own.  One of them is loaded exactly if the other is, and the programs answer all
questions alike (`Program.answersAlike_of_rearranges`).

What a fixture has to satisfy speaks of the members of its lists (`Rearranges.wellFormed`), although
the checks go through the lists and the walks over ancestors start at the first type.  No identity
and no key is declared twice, so a look-up finds the one declaration wherever it stands: the
programs agree in their look-ups (`Program.Agrees`).  A run that answers a question in one program
is a run in the other, and what is collected from a list is sorted before it is shown.
-/

namespace TypeDescription

/-! ## Fixtures -/

namespace Fixture

/-- Two fixtures list the same types and symbols. -/
structure Rearranges (f f' : Fixture) : Prop where
  types : f.types.Perm f'.types
  symbols : f.symbols.entries.Perm f'.symbols.entries

variable {f f' : Fixture}

/-- A fixture with both lists turned round. -/
def reverse (f : Fixture) : Fixture where
  types := f.types.reverse
  symbols :=
    ⟨f.symbols.entries.reverse, by
      rw [List.map_reverse]
      exact List.nodup_reverse.2 f.symbols.keys_nodup⟩

theorem rearranges_reverse (f : Fixture) : f.Rearranges f.reverse :=
  ⟨(List.reverse_perm _).symm, (List.reverse_perm _).symm⟩

theorem Rearranges.symm (h : f.Rearranges f') : f'.Rearranges f :=
  ⟨h.types.symm, h.symbols.symm⟩

section Rearranges

variable (h : f.Rearranges f')

include h

theorem Rearranges.mem_ids_iff {id : TypeId} :
    id ∈ f.types.map TypeEntry.id ↔ id ∈ f'.types.map TypeEntry.id :=
  (h.types.map TypeEntry.id).mem_iff

theorem Rearranges.mem_keys_iff {key : String} : key ∈ f.symbols.keys ↔ key ∈ f'.symbols.keys :=
  (h.symbols.map Prod.fst).mem_iff

theorem Rearranges.hasParent {id parent : TypeId} (hparent : f.HasParent id parent) :
    f'.HasParent id parent := by
  obtain ⟨entry, hentry, hid, hparent⟩ := hparent
  exact ⟨entry, h.types.mem_iff.1 hentry, hid, hparent⟩

theorem Rearranges.mentionsType {mention : Mention} {id : TypeId}
    (hmention : f.MentionsType mention id) : f'.MentionsType mention id := by
  cases hmention with
  | shape hentry hid => exact .shape (h.types.mem_iff.1 hentry) hid
  | symbol hentry hid => exact .symbol (h.symbols.mem_iff.1 hentry) hid

theorem Rearranges.mentionsSymbol {mention : Mention} {key : String}
    (hmention : f.MentionsSymbol mention key) : f'.MentionsSymbol mention key := by
  cases hmention with
  | type hentry hkey => exact .type (h.types.mem_iff.1 hentry) hkey
  | property hentry hkey => exact .property (h.types.mem_iff.1 hentry) hkey
  | aliasOf hentry hkey => exact .aliasOf (h.symbols.mem_iff.1 hentry) hkey
  | parameter hentry hconstructor hkey =>
    exact .parameter (h.symbols.mem_iff.1 hentry) hconstructor hkey

theorem Rearranges.usesKeyword {key keyword : String} (huse : f.UsesKeyword key keyword) :
    f'.UsesKeyword key keyword := by
  cases huse with
  | symbol hentry hkeyword => exact .symbol (h.symbols.mem_iff.1 hentry) hkeyword
  | constructor hentry hconstructor hkeyword =>
    exact .constructor (h.symbols.mem_iff.1 hentry) hconstructor hkeyword

/-- What a fixture has to satisfy does not depend on the order of its lists. -/
theorem Rearranges.wellFormed (hwell : f.WellFormed) : f'.WellFormed := by
  constructor
  case ids_nodup => exact (h.types.map TypeEntry.id).nodup_iff.1 hwell.ids_nodup
  case keywords_known =>
    intro key keyword huse
    exact hwell.keywords_known key keyword (h.symm.usesKeyword huse)
  case types_declared =>
    intro mention id hmention
    exact h.mem_ids_iff.1 (hwell.types_declared mention id (h.symm.mentionsType hmention))
  case symbols_declared =>
    intro mention key hmention
    exact h.mem_keys_iff.1 (hwell.symbols_declared mention key (h.symm.mentionsSymbol hmention))
  case acyclic =>
    intro id hcycle
    have hback : f'.HasParent ≤ f.HasParent := fun _ _ hparent => h.symm.hasParent hparent
    exact hwell.acyclic id (Relation.TransGen.mono hback _ _ hcycle)

end Rearranges

end Fixture

namespace Program

variable {f f' : Fixture} {p p' : Program}

/-! ## Look-ups -/

/-- A loaded program has a symbol for each entry, with the name and the modifiers that the entry
gives it. -/
theorem symbols_of_loaded (h : ofFixture f = .ok p) :
    List.Forall₂ (fun entry symbol => ∃ m, modifiersOf entry.1 entry.2.modifiers = .ok m ∧
        symbol = (entry.1, ⟨entry.2.name.getD (lastPart entry.1), entry.2, m⟩))
      f.symbols.entries p.symbols.entries := by
  unfold ofFixture at h
  obtain ⟨symbols, hsymbols, h⟩ := bind_eq_ok.1 h
  obtain ⟨_, _, h⟩ := bind_eq_ok.1 h
  obtain ⟨_, _, h⟩ := bind_eq_ok.1 h
  obtain ⟨_, _, h⟩ := bind_eq_ok.1 h
  obtain ⟨_, _, h⟩ := bind_eq_ok.1 h
  obtain rfl := Except.ok.inj h
  have hall : List.Forall₂ (fun entry symbol =>
      ∃ m, modifiersOf entry.1 entry.2.modifiers = .ok m ∧
        symbol = (entry.1, ⟨entry.2.name.getD (lastPart entry.1), entry.2, m⟩))
      f.symbols.entries symbols := by
    refine (forall₂_of_mapM_ok hsymbols).imp fun entry symbol hsymbol => ?_
    obtain ⟨m, hm, hsymbol⟩ := bind_eq_ok.1 hsymbol
    exact ⟨m, hm, (Except.ok.inj hsymbol).symm⟩
  have hkeys : symbols.map Prod.fst = f.symbols.keys :=
    map_fst_of_forall₂ hall fun _ _ ⟨_, _, hsymbol⟩ => congrArg Prod.fst hsymbol
  have hentries : (Table.ofList symbols).entries = symbols :=
    Table.entries_ofList (hkeys ▸ f.symbols.keys_nodup)
  exact hentries.symm ▸ hall

/-- Under a key stands what is made of the entry with the key. -/
theorem get?_eq_some_iff_of_loaded (h : ofFixture f = .ok p) {key : String} {s : ProgramSymbol} :
    p.symbols.get? key = some s ↔ ∃ entry m, (key, entry) ∈ f.symbols.entries ∧
      modifiersOf key entry.modifiers = .ok m ∧
        s = ⟨entry.name.getD (lastPart key), entry, m⟩ := by
  have hall := symbols_of_loaded h
  rw [Table.get?_eq_some_iff]
  constructor
  · intro hsymbol
    obtain ⟨⟨_, entry⟩, hentry, m, hm, heq⟩ := exists_mem_of_forall₂ hall _ hsymbol
    cases heq
    exact ⟨entry, m, hentry, hm, rfl⟩
  · rintro ⟨entry, m, hentry, hm, rfl⟩
    obtain ⟨symbol, hsymbol, m', hm', rfl⟩ := exists_mem_of_forall₂ hall.flip _ hentry
    cases hm.symm.trans hm'
    exact hsymbol

/-- Two programs hold the same types, each in an order of its own, and look up the same. -/
structure Agrees (p p' : Program) : Prop where
  types : p.types.Perm p'.types
  type? : p.type? = p'.type?
  get? : p.symbols.get? = p'.symbols.get?

theorem agrees_of_rearranges (h : f.Rearranges f') (hload : ofFixture f = .ok p)
    (hload' : ofFixture f' = .ok p') : p.Agrees p' := by
  obtain ⟨hwell, hsame, -⟩ := (ofFixture_concludes f).of_ok hload
  obtain ⟨hwell', hsame', -⟩ := (ofFixture_concludes f').of_ok hload'
  constructor
  case types =>
    rw [hsame.types_eq, hsame'.types_eq]
    exact h.types
  case type? =>
    funext id
    ext entry
    rw [type?_eq_some_iff (hsame.types_eq ▸ hwell.ids_nodup),
      type?_eq_some_iff (hsame'.types_eq ▸ hwell'.ids_nodup), hsame.types_eq, hsame'.types_eq,
      h.types.mem_iff]
  case get? =>
    funext key
    ext s
    simp only [get?_eq_some_iff_of_loaded hload, get?_eq_some_iff_of_loaded hload',
      h.symbols.mem_iff]

/-! ## Questions -/

section Agrees

variable (h : p.Agrees p')

include h

theorem Agrees.shape?_eq : p.shape? = p'.shape? := by
  unfold shape?
  rw [h.type?]

theorem Agrees.symbol?_eq : p.symbol? = p'.symbol? := by
  unfold symbol? Table.contains
  rw [h.get?]

theorem Agrees.symbolsAt_eq : p.symbolsAt = p'.symbolsAt := by
  unfold symbolsAt
  rw [h.symbol?_eq]

theorem Agrees.symbolName_eq : p.symbolName = p'.symbolName := by
  unfold symbolName
  rw [h.get?]

theorem Agrees.addInherited_eq : p.addInherited = p'.addInherited := by
  unfold addInherited
  rw [h.symbolName_eq]

theorem Agrees.shapeText_eq : p.shapeText = p'.shapeText := by
  unfold shapeText
  rw [h.shape?_eq]

theorem Agrees.grounded (hgrounded : ∀ id, p.Grounded id) (id : TypeId) : p'.Grounded id := by
  have hparents : p.HasParent = p'.HasParent := by
    unfold HasParent parents
    rw [h.shape?_eq]
  unfold Grounded
  rw [← hparents]
  exact hgrounded id

/-- A search for the symbol of a type goes the same way in both programs. -/
theorem Agrees.findsSymbol {id : TypeId} {found : Option String} (hfound : p.FindsSymbol id found) :
    p'.FindsSymbol id found := by
  induction hfound with
  | undeclared hid => exact .undeclared (h.type? ▸ hid)
  | own hid hsymbol => exact h.symbol?_eq ▸ .own (h.type? ▸ hid) hsymbol
  | target hid hsymbol hshape _ ih => exact .target (h.type? ▸ hid) hsymbol hshape ih
  | without hid hsymbol hshape => exact .without (h.type? ▸ hid) hsymbol hshape

/-- So does an enumeration of properties. -/
theorem Agrees.enumerates {id : TypeId} {properties : List String}
    (hproperties : p.Enumerates id properties) : p'.Enumerates id properties := by
  induction hproperties with
  | object hshape => exact h.symbolsAt_eq ▸ .object (h.shape?_eq ▸ hshape)
  | declared hshape _ ih =>
    rw [h.symbolsAt_eq, h.addInherited_eq]
    exact .declared (h.shape?_eq ▸ hshape) ih
  | target hshape _ ih => exact .target (h.shape?_eq ▸ hshape) ih
  | without hshape => exact .without (h.shape?_eq ▸ hshape)

variable (hgrounded : ∀ id, p.Grounded id)

include hgrounded

theorem Agrees.symbolOfType?_eq : p.symbolOfType? = p'.symbolOfType? := by
  funext id
  have hrun := h.findsSymbol (findsSymbol_symbolOfType? hgrounded id)
  exact hrun.unique (findsSymbol_symbolOfType? (h.grounded hgrounded) id)

theorem Agrees.propertiesOfType_eq : p.propertiesOfType = p'.propertiesOfType := by
  funext id
  have hrun := h.enumerates (enumerates_propertiesOfType hgrounded id)
  exact hrun.unique (enumerates_propertiesOfType (h.grounded hgrounded) id)

theorem Agrees.displayWithin_eq (room : Nat) (id : TypeId) :
    p.displayWithin room id = p'.displayWithin room id := by
  induction room using Nat.strongRecOn generalizing id with
  | ind room ih =>
    cases htype : p.type? id with
    | none =>
      rw [displayWithin_of_type?_eq_none htype, displayWithin_of_type?_eq_none (h.type? ▸ htype)]
    | some entry =>
      have htype' : p'.type? id = some entry := h.type? ▸ htype
      cases hdisplay : entry.display with
      | some text =>
        rw [displayWithin_of_display htype hdisplay, displayWithin_of_display htype' hdisplay]
      | none =>
        cases room with
        | zero => rw [displayWithin_zero htype hdisplay, displayWithin_zero htype' hdisplay]
        | succ room =>
          have hinner : p.displayWithin room = p'.displayWithin room :=
            funext (ih room (Nat.lt_succ_self room))
          rw [displayWithin_succ htype hdisplay, displayWithin_succ htype' hdisplay, hinner,
            h.shapeText_eq, h.symbolName_eq, h.symbolOfType?_eq hgrounded]

theorem Agrees.display_eq : p.display = p'.display :=
  funext (h.displayWithin_eq hgrounded 9)

/-- Programs that agree in their look-ups answer all questions alike. -/
theorem Agrees.host_eq : p.host = p'.host := by
  unfold host declaredProperties referenceName? symbolFlags hasValueDeclaration
    typeOfSymbol? modifiers initializer? constructSignatures aliasedSymbol?
  rw [h.shape?_eq, h.type?, h.get?, h.symbolsAt_eq, h.symbol?_eq, h.symbolName_eq,
    h.symbolOfType?_eq hgrounded, h.propertiesOfType_eq hgrounded, h.display_eq hgrounded]

end Agrees

/-! ## Collected types -/

theorem Agrees.containsType_eq (h : p.Agrees p') (id : TypeId) :
    p.containsType id = p'.containsType id :=
  h.types.any_eq

theorem Agrees.classes_eq (h : p.Agrees p') : p.classes = p'.classes := by
  unfold classes
  exact ascending_eq_of_perm ((h.types.filter _).map TypeEntry.id)

theorem Agrees.declaredType?_eq (h : p.Agrees p') (name : String) :
    p.declaredType? name = p'.declaredType? name := by
  unfold declaredType?
  rw [h.get?]
  exact congrArg List.head? (ascending_eq_of_perm ((h.types.filter _).map TypeEntry.id))

/-! ## All answers -/

/-- Two programs tell the same of all types and symbols. -/
structure AnswersAlike (p p' : Program) : Prop where
  containsType : ∀ id, p.containsType id = p'.containsType id
  /-- The handles of symbols are the same; they are keys. -/
  symbol? : ∀ key, p.symbol? key = p'.symbol? key
  classes : p.classes = p'.classes
  declaredType? : ∀ name, p.declaredType? name = p'.declaredType? name
  /-- The hosts answer each question alike, for each type and each symbol. -/
  host : p.host = p'.host

/-- The order in which a fixture lists its types and symbols has no influence: neither on whether it
is loaded, nor on any answer. -/
theorem answersAlike_of_rearranges (h : f.Rearranges f') :
    ((∃ p, ofFixture f = .ok p) ↔ ∃ p', ofFixture f' = .ok p') ∧
      ∀ p p', ofFixture f = .ok p → ofFixture f' = .ok p' → p.AnswersAlike p' := by
  constructor
  · rw [(ofFixture_ok_iff f).1, (ofFixture_ok_iff f').1]
    exact ⟨h.wellFormed, h.symm.wellFormed⟩
  · intro p p' hload hload'
    have hagrees : p.Agrees p' := agrees_of_rearranges h hload hload'
    obtain ⟨-, -, hgrounded⟩ := (ofFixture_concludes f).of_ok hload
    exact ⟨hagrees.containsType_eq, congrFun hagrees.symbol?_eq, hagrees.classes_eq,
      hagrees.declaredType?_eq, hagrees.host_eq hgrounded⟩

/-- Two classes of one name, the one with the greater identity first, which inherits from the other
one through a reference. -/
def bookcase : Fixture where
  types :=
    [⟨⟨3⟩, .declared false ["b.top"] [⟨2⟩], some "b.Shelf", none, none⟩,
      ⟨⟨2⟩, .reference ⟨1⟩ [], none, none, none⟩,
      ⟨⟨1⟩, .declared false ["a.top", "a.low"] [], some "a.Shelf", none, none⟩]
  symbols := Table.ofList
    [("b.Shelf", ⟨none, .classSymbol, some ⟨3⟩, [], none, none, none, []⟩),
      ("b.top", ⟨none, .property, some ⟨2⟩, ["readonly"], none, none, none, []⟩),
      ("a.low", ⟨none, .property, none, [], none, none, none, []⟩),
      ("a.top", ⟨none, .property, none, [], none, none, none, []⟩),
      ("a.Shelf", ⟨none, .classSymbol, some ⟨1⟩, [], none, none, none, []⟩)]

theorem answersAlike_bookcase : bookcase.Rearranges bookcase.reverse ∧
    ∃ p p', ofFixture bookcase = .ok p ∧ ofFixture bookcase.reverse = .ok p' ∧
      p.types ≠ p'.types ∧ p'.propertiesOfType ⟨3⟩ = ["b.top", "a.low"] ∧
      p.AnswersAlike p' := by
  have h : bookcase.Rearranges bookcase.reverse := bookcase.rearranges_reverse
  obtain ⟨p, hload⟩ := exists_of_isOk (m := ofFixture bookcase) (by decide +kernel)
  obtain ⟨p', hload'⟩ := (answersAlike_of_rearranges h).1.1 ⟨p, hload⟩
  have hmade : ((ofFixture bookcase.reverse).toOption.map fun p => p.propertiesOfType ⟨3⟩) =
      some ["b.top", "a.low"] := by decide +kernel
  rw [hload', Except.toOption, Option.map_some, Option.some_inj] at hmade
  have htypes : p.types ≠ p'.types := by
    rw [((ofFixture_concludes _).of_ok hload).2.1.types_eq,
      ((ofFixture_concludes _).of_ok hload').2.1.types_eq]
    decide
  exact ⟨h, p, p', hload, hload', htypes, hmade,
    (answersAlike_of_rearranges h).2 p p' hload hload'⟩

end Program

end TypeDescription
