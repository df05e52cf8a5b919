import Mathlib.Data.List.Duplicate
import TypeDescription.Proofs.Fields
import TypeDescription.Proofs.Fixture.Ancestry

/-!
# Which fixtures are loaded

`Fixture.WellFormed` says what a fixture has to satisfy: no type is declared twice, keywords are
known, what is mentioned is declared, and no type is its own ancestor.  `Fixture.Flaw` says of each
error what is wrong with a fixture that deserves it.

A fixture is loaded exactly if it is well-formed, and an error names one of its flaws
(`Program.ofFixture_ok_iff`).  A loaded program holds the types and symbols of its fixture
(`Fixture.Represents`).
-/

namespace TypeDescription

/-! ## What a fixture mentions -/

namespace Shape

/-- A class or interface has its bases as parents, a reference its target. -/
inductive HasParent : Shape → TypeId → Prop
  | base {isInterface : Bool} {properties : List String} {bases : List TypeId} {id : TypeId}
      (hid : id ∈ bases) : HasParent (.declared isInterface properties bases) id
  | target {id : TypeId} {arguments : List TypeId} : HasParent (.reference id arguments) id

/-- The types that a type is made of. -/
inductive MentionsType : Shape → TypeId → Prop
  | parent {shape : Shape} {id : TypeId} (h : shape.HasParent id) : MentionsType shape id
  | union {members : List TypeId} {id : TypeId} (hid : id ∈ members) :
      MentionsType (.union members) id
  | intersection {members : List TypeId} {id : TypeId} (hid : id ∈ members) :
      MentionsType (.intersection members) id
  | argument {target id : TypeId} {arguments : List TypeId} (hid : id ∈ arguments) :
      MentionsType (.reference target arguments) id

/-- The symbols that a type lists as its properties. -/
inductive HasProperty : Shape → String → Prop
  | object {anonymous : Bool} {calls : Nat} {properties : List String} {key : String}
      (hkey : key ∈ properties) : HasProperty (.object anonymous calls properties) key
  | declared {isInterface : Bool} {properties : List String} {bases : List TypeId} {key : String}
      (hkey : key ∈ properties) : HasProperty (.declared isInterface properties bases) key

variable {shape : Shape} {id : TypeId} {key : String}

theorem mem_parents_iff : id ∈ shape.parents ↔ shape.HasParent id := by
  constructor
  · intro h
    cases shape with
    | declared => exact .base h
    | reference => exact List.mem_singleton.1 h ▸ .target
    | _ => cases h
  · rintro (hid | _)
    · exact hid
    · exact List.mem_singleton_self id

theorem mem_mentionedTypes_iff : id ∈ shape.mentionedTypes ↔ shape.MentionsType id := by
  constructor
  · intro h
    cases shape with
    | union => exact .union h
    | intersection => exact .intersection h
    | declared => exact .parent (.base h)
    | reference =>
      rcases List.mem_cons.1 h with rfl | h
      · exact .parent .target
      · exact .argument h
    | _ => cases h
  · rintro ((hid | _) | hid | hid | hid)
    · exact hid
    · exact List.mem_cons_self
    · exact hid
    · exact hid
    · exact List.mem_cons_of_mem _ hid

theorem mem_mentionedSymbols_iff : key ∈ shape.mentionedSymbols ↔ shape.HasProperty key := by
  constructor
  · intro h
    cases shape with
    | object => exact .object h
    | declared => exact .declared h
    | _ => cases h
  · rintro (hkey | hkey) <;> exact hkey

end Shape

namespace Fixture

/-- A declaration of a type has another type as a parent. -/
def HasParent (f : Fixture) (id parent : TypeId) : Prop :=
  ∃ entry ∈ f.types, entry.id = id ∧ entry.shape.HasParent parent

/-- A place of a fixture mentions a type. -/
inductive MentionsType (f : Fixture) : Mention → TypeId → Prop
  | shape {entry : TypeEntry} {id : TypeId} (hentry : entry ∈ f.types)
      (hid : entry.shape.MentionsType id) : MentionsType f (.type entry.id) id
  | symbol {key : String} {entry : SymbolEntry} {id : TypeId}
      (hentry : (key, entry) ∈ f.symbols.entries) (hid : entry.type = some id) :
      MentionsType f (.symbol key) id

/-- A place of a fixture mentions a symbol. -/
inductive MentionsSymbol (f : Fixture) : Mention → String → Prop
  | type {entry : TypeEntry} {mentioned : String} (hentry : entry ∈ f.types)
      (hmentioned : entry.symbol = some mentioned) : MentionsSymbol f (.type entry.id) mentioned
  | property {entry : TypeEntry} {mentioned : String} (hentry : entry ∈ f.types)
      (hmentioned : entry.shape.HasProperty mentioned) :
      MentionsSymbol f (.type entry.id) mentioned
  | aliasOf {key mentioned : String} {entry : SymbolEntry}
      (hentry : (key, entry) ∈ f.symbols.entries) (hmentioned : entry.aliasOf = some mentioned) :
      MentionsSymbol f (.symbol key) mentioned
  | parameter {key mentioned : String} {entry : SymbolEntry} {constructor : ConstructorEntry}
      (hentry : (key, entry) ∈ f.symbols.entries) (hconstructor : constructor ∈ entry.constructors)
      (hmentioned : mentioned ∈ constructor.parameters) : MentionsSymbol f (.symbol key) mentioned

/-- A symbol of a fixture or one of its constructors has a keyword among its modifiers. -/
inductive UsesKeyword (f : Fixture) : String → String → Prop
  | symbol {key keyword : String} {entry : SymbolEntry}
      (hentry : (key, entry) ∈ f.symbols.entries) (hkeyword : keyword ∈ entry.modifiers) :
      UsesKeyword f key keyword
  | constructor {key keyword : String} {entry : SymbolEntry} {constructor : ConstructorEntry}
      (hentry : (key, entry) ∈ f.symbols.entries) (hconstructor : constructor ∈ entry.constructors)
      (hkeyword : keyword ∈ constructor.modifiers) : UsesKeyword f key keyword

/-- What a fixture has to satisfy. -/
structure WellFormed (f : Fixture) : Prop where
  ids_nodup : (f.types.map TypeEntry.id).Nodup
  keywords_known : ∀ key keyword, f.UsesKeyword key keyword →
    keyword ∈ Modifiers.keywords.map Prod.fst
  types_declared : ∀ mention id, f.MentionsType mention id → id ∈ f.types.map TypeEntry.id
  symbols_declared : ∀ mention key, f.MentionsSymbol mention key → key ∈ f.symbols.keys
  acyclic : ∀ id, ¬ Relation.TransGen f.HasParent id id

/-- What a type mentions is declared. -/
structure CompleteType (f : Fixture) (entry : TypeEntry) : Prop where
  symbol : ∀ key ∈ entry.symbol, key ∈ f.symbols.keys
  types : ∀ id, entry.shape.MentionsType id → id ∈ f.types.map TypeEntry.id
  properties : ∀ key, entry.shape.HasProperty key → key ∈ f.symbols.keys

/-- The parameters of a constructor are declared, and its keywords are known. -/
structure CompleteConstructor (f : Fixture) (constructor : ConstructorEntry) : Prop where
  parameters : ∀ parameter ∈ constructor.parameters, parameter ∈ f.symbols.keys
  keywords : ∀ keyword ∈ constructor.modifiers, keyword ∈ Modifiers.keywords.map Prod.fst

/-- What a symbol mentions is declared, and the keywords of its constructors are known. -/
structure CompleteSymbol (f : Fixture) (entry : SymbolEntry) : Prop where
  type : ∀ id ∈ entry.type, id ∈ f.types.map TypeEntry.id
  aliasOf : ∀ target ∈ entry.aliasOf, target ∈ f.symbols.keys
  constructors : ∀ constructor ∈ entry.constructors, f.CompleteConstructor constructor

/-- What is wrong with a fixture that is refused with an error. -/
inductive Flaw (f : Fixture) : FixtureError → Prop
  | duplicateType {id : TypeId} (h : (f.types.map TypeEntry.id).Duplicate id) :
      Flaw f (.duplicateType id)
  | unknownModifier {key keyword : String} (h : f.UsesKeyword key keyword)
      (hunknown : keyword ∉ Modifiers.keywords.map Prod.fst) : Flaw f (.unknownModifier key keyword)
  | unknownType {mention : Mention} {id : TypeId} (h : f.MentionsType mention id)
      (hunknown : id ∉ f.types.map TypeEntry.id) : Flaw f (.unknownType id mention)
  | unknownSymbol {mention : Mention} {key : String} (h : f.MentionsSymbol mention key)
      (hunknown : key ∉ f.symbols.keys) : Flaw f (.unknownSymbol key mention)
  | cyclicBases {id : TypeId} (h : Relation.TransGen f.HasParent id id) : Flaw f (.cyclicBases id)

theorem Flaw.not_wellFormed {f : Fixture} {e : FixtureError} (h : f.Flaw e) : ¬ f.WellFormed := by
  intro hwell
  cases h with
  | duplicateType h => exact h.not_nodup hwell.ids_nodup
  | unknownModifier h hunknown => exact hunknown (hwell.keywords_known _ _ h)
  | unknownType h hunknown => exact hunknown (hwell.types_declared _ _ h)
  | unknownSymbol h hunknown => exact hunknown (hwell.symbols_declared _ _ h)
  | cyclicBases h => exact hwell.acyclic _ h

/-- A program has the types and the symbols of a fixture. -/
structure Represents (f : Fixture) (p : Program) : Prop where
  types_eq : p.types = f.types
  symbols : List.Forall₂ (fun entry symbol => symbol.1 = entry.1 ∧ symbol.2.entry = entry.2)
    f.symbols.entries p.symbols.entries

end Fixture

/-! ## The checks -/

theorem Modifiers.isSome_ofKeyword?_iff {keyword : String} :
    (ofKeyword? keyword).isSome = true ↔ keyword ∈ keywords.map Prod.fst := by
  rw [ofKeyword?, Option.isSome_map]
  generalize keywords = known
  induction known with
  | nil => simp
  | cons entry known ih =>
    rw [List.lookup_cons, List.map_cons, List.mem_cons]
    rcases eq_or_ne keyword entry.1 with heq | hne
    · simp [heq]
    · simp [beq_eq_false_iff_ne.2 hne, hne, ih]

namespace Program

variable {f : Fixture} {p : Program}

theorem modifiersOf_concludes (key : String) (keywords : List String) :
    Concludes (fun _ => ∀ keyword ∈ keywords, keyword ∈ Modifiers.keywords.map Prod.fst)
      (fun e => ∃ keyword ∈ keywords, keyword ∉ Modifiers.keywords.map Prod.fst ∧
        e = .unknownModifier key keyword)
      (modifiersOf key keywords) := by
  unfold modifiersOf
  generalize Modifiers.none = taken
  induction keywords generalizing taken with
  | nil => exact .ok nofun
  | cons keyword keywords ih =>
    rw [List.foldlM_cons]
    have hknown : _ ↔ keyword ∈ _ := Modifiers.isSome_ofKeyword?_iff
    cases hkeyword : Modifiers.ofKeyword? keyword with
    | none =>
      rw [hkeyword] at hknown
      exact .error ⟨keyword, List.mem_cons_self, (fun h => nomatch hknown.2 h), rfl⟩
    | some m =>
      rw [hkeyword] at hknown
      refine (ih (taken.union m)).imp (fun _ hall => List.forall_mem_cons.2 ⟨hknown.1 rfl, hall⟩) ?_
      rintro e ⟨other, hother, he⟩
      exact ⟨other, List.mem_cons_of_mem keyword hother, he⟩

theorem map_fst_of_forall₂ {α β : Type} {rel : String × α → String × β → Prop}
    {es : List (String × α)} {fs : List (String × β)} (h : List.Forall₂ rel es fs)
    (hrel : ∀ e f, rel e f → f.1 = e.1) : fs.map Prod.fst = es.map Prod.fst := by
  induction h with
  | nil => rfl
  | cons hef _ ih => rw [List.map_cons, List.map_cons, hrel _ _ hef, ih]

/-- Each symbol keeps its key and its entry. -/
theorem symbolsOf_concludes (f : Fixture) :
    Concludes
      (List.Forall₂ (fun entry symbol => (symbol.1 = entry.1 ∧ symbol.2.entry = entry.2) ∧
        ∀ keyword ∈ entry.2.modifiers, keyword ∈ Modifiers.keywords.map Prod.fst)
        f.symbols.entries)
      f.Flaw (symbolsOf f.symbols.entries) := by
  refine Concludes.mapM fun entry hentry => ?_
  have hmodifiers := (modifiersOf_concludes entry.1 entry.2.modifiers).imp (R := f.Flaw)
    (fun _ h => h) ?_
  · exact hmodifiers.bind fun m hm => .ok ⟨⟨rfl, rfl⟩, hm⟩
  · rintro e ⟨keyword, hkeyword, hunknown, rfl⟩
    exact .unknownModifier (.symbol hentry hkeyword) hunknown

theorem checkDistinct_concludes (before ids : List TypeId) :
    Concludes (fun _ => ids.Nodup ∧ ∀ id ∈ ids, id ∉ before)
      (fun e => ∃ id, e = .duplicateType id ∧ (ids.Duplicate id ∨ id ∈ ids ∧ id ∈ before))
      (checkDistinct before ids) := by
  induction ids generalizing before with
  | nil => exact .ok (by simp)
  | cons id rest ih =>
    rw [checkDistinct]
    split
    · next hid => exact .error ⟨id, rfl, .inr ⟨List.mem_cons_self, by simpa using hid⟩⟩
    · next hid =>
      refine (ih (id :: before)).imp (fun _ ⟨hnodup, hfree⟩ => ?_) ?_
      · refine ⟨List.nodup_cons.2 ⟨fun hmem => hfree id hmem List.mem_cons_self, hnodup⟩, ?_⟩
        refine List.forall_mem_cons.2 ⟨by simpa using hid, fun other hother hmem => ?_⟩
        exact hfree other hother (List.mem_cons_of_mem id hmem)
      · rintro e ⟨other, rfl, hduplicate | ⟨hother, hmem⟩⟩
        · exact ⟨other, rfl, .inl (.cons_duplicate hduplicate)⟩
        · rcases List.mem_cons.1 hmem with rfl | hmem
          · exact ⟨other, rfl, .inl (.cons_mem hother)⟩
          · exact ⟨other, rfl, .inr ⟨List.mem_cons_of_mem id hother, hmem⟩⟩

/-! ## Mentions -/

section Mentions

variable (h : f.Represents p)

include h

theorem keys_symbols : p.symbols.keys = f.symbols.keys :=
  map_fst_of_forall₂ h.symbols fun _ _ hsymbol => hsymbol.1

/-- Under each key stands the symbol of the fixture. -/
theorem map_entry_get? (key : String) :
    (p.symbols.get? key).map ProgramSymbol.entry = f.symbols.get? key := by
  ext entry
  simp only [Option.map_eq_some_iff, Table.get?_eq_some_iff]
  constructor
  · rintro ⟨symbol, hsymbol, rfl⟩
    obtain ⟨⟨_, _⟩, hentry, rfl, rfl⟩ := exists_mem_of_forall₂ h.symbols _ hsymbol
    exact hentry
  · intro hentry
    obtain ⟨⟨_, symbol⟩, hsymbol, rfl, hsame⟩ := exists_mem_of_forall₂ h.symbols.flip _ hentry
    exact ⟨symbol, hsymbol, hsame⟩

theorem containsType_iff {id : TypeId} :
    p.containsType id = true ↔ id ∈ f.types.map TypeEntry.id := by
  simp [containsType, h.types_eq]

theorem containsSymbol_iff {key : String} :
    p.symbols.contains key = true ↔ key ∈ f.symbols.keys := by
  rw [← keys_symbols h, Table.mem_keys_iff, Table.contains, Option.isSome_iff_exists]

theorem checkType_concludes {mention : Mention} {id : TypeId} (hid : f.MentionsType mention id) :
    Concludes (fun _ => id ∈ f.types.map TypeEntry.id) f.Flaw (p.checkType mention id) := by
  rw [checkType]
  split
  · next hcontains => exact .ok ((containsType_iff h).1 hcontains)
  · next hcontains => exact .error (.unknownType hid (mt (containsType_iff h).2 hcontains))

theorem checkSymbol_concludes {mention : Mention} {key : String}
    (hkey : f.MentionsSymbol mention key) :
    Concludes (fun _ => key ∈ f.symbols.keys) f.Flaw (p.checkSymbol mention key) := by
  rw [checkSymbol]
  split
  · next hcontains => exact .ok ((containsSymbol_iff h).1 hcontains)
  · next hcontains => exact .error (.unknownSymbol hkey (mt (containsSymbol_iff h).2 hcontains))

theorem checkTypeEntry_concludes {entry : TypeEntry} (hentry : entry ∈ f.types) :
    Concludes (fun _ => f.CompleteType entry) f.Flaw (p.checkTypeEntry entry) := by
  refine (Concludes.option_forM fun key hkey => checkSymbol_concludes h ?_).bind fun _ hsymbol => ?_
  · exact .type hentry hkey
  refine (Concludes.forM fun id hid => checkType_concludes h ?_).bind fun _ htypes => ?_
  · exact .shape hentry (Shape.mem_mentionedTypes_iff.1 hid)
  refine (Concludes.forM fun key hkey => checkSymbol_concludes h ?_).imp
    (fun _ hproperties => ⟨hsymbol, fun id hid => htypes id (Shape.mem_mentionedTypes_iff.2 hid),
      fun key hkey => hproperties key (Shape.mem_mentionedSymbols_iff.2 hkey)⟩) fun _ he => he
  exact .property hentry (Shape.mem_mentionedSymbols_iff.1 hkey)

theorem checkSymbolEntry_concludes {key : String} {entry : SymbolEntry}
    (hentry : (key, entry) ∈ f.symbols.entries) :
    Concludes (fun _ => f.CompleteSymbol entry) f.Flaw (p.checkSymbolEntry key entry) := by
  refine (Concludes.option_forM fun id hid => checkType_concludes h ?_).bind fun _ htype => ?_
  · exact .symbol hentry hid
  refine (Concludes.option_forM fun target htarget => checkSymbol_concludes h ?_).bind
    fun _ halias => ?_
  · exact .aliasOf hentry htarget
  refine (Concludes.forM fun constructor hconstructor => ?_).imp
    (fun _ hconstructors => ⟨htype, halias, hconstructors⟩) fun _ he => he
  refine (Concludes.forM fun parameter hparameter => checkSymbol_concludes h ?_).bind
    fun _ hparameters => ?_
  · exact .parameter hentry hconstructor hparameter
  have hmodifiers := (modifiersOf_concludes key constructor.modifiers).imp (R := f.Flaw)
    (fun _ h => h) ?_
  · exact hmodifiers.bind fun _ hkeywords => .ok ⟨hparameters, hkeywords⟩
  · rintro e ⟨keyword, hkeyword, hunknown, rfl⟩
    exact .unknownModifier (.constructor hentry hconstructor hkeyword) hunknown

end Mentions

/-! ## Parents -/

/-- Where no type is declared twice, a look-up finds every declaration. -/
theorem type?_eq_some_iff (h : (p.types.map TypeEntry.id).Nodup) {id : TypeId}
    {entry : TypeEntry} : p.type? id = some entry ↔ entry ∈ p.types ∧ entry.id = id := by
  constructor
  · intro hfind
    exact ⟨List.mem_of_find?_eq_some hfind, by simpa using List.find?_some hfind⟩
  · rintro ⟨hmem, rfl⟩
    cases hfind : p.type? entry.id with
    | none => simpa using List.find?_eq_none.1 hfind entry hmem
    | some other =>
      have hid : other.id = entry.id := by simpa using List.find?_some hfind
      rw [List.inj_on_of_nodup_map h (List.mem_of_find?_eq_some hfind) hmem hid]

theorem hasParent_iff_exists {id parent : TypeId} :
    p.HasParent id parent ↔ ∃ entry, p.type? id = some entry ∧ entry.shape.HasParent parent := by
  rw [HasParent, parents, shape?]
  cases p.type? id <;> simp [Shape.mem_parents_iff]

theorem hasParent_eq (h : f.Represents p) (hnodup : (f.types.map TypeEntry.id).Nodup) :
    p.HasParent = f.HasParent := by
  funext id parent
  simp only [hasParent_iff_exists, type?_eq_some_iff (h.types_eq ▸ hnodup), h.types_eq,
    Fixture.HasParent, and_assoc]

theorem declaredIds_eq (h : f.Represents p) :
    p.declaredIds = (f.types.map TypeEntry.id).toFinset := by
  rw [declaredIds, h.types_eq]

/-- The shape of a declared type is the declared one. -/
theorem shape?_of_mem (h : f.Represents p) (hwell : f.WellFormed) {entry : TypeEntry}
    (hentry : entry ∈ f.types) : p.shape? entry.id = some entry.shape := by
  have htype : p.type? entry.id = some entry :=
    (type?_eq_some_iff (h.types_eq ▸ hwell.ids_nodup)).2 ⟨h.types_eq ▸ hentry, rfl⟩
  rw [shape?, htype, Option.map_some]

/-! ## Loading -/

/-- The walks over ancestors accept a fixture whose mentions are declared if it has no cycle. -/
theorem checkAncestors_concludes_flaw (h : f.Represents p)
    (hnodup : (f.types.map TypeEntry.id).Nodup)
    (hcomplete : ∀ entry ∈ f.types, f.CompleteType entry) :
    Concludes (fun _ => ∀ id, p.Grounded id) f.Flaw
      (p.checkAncestors (f.types.map TypeEntry.id)) := by
  refine (checkAncestors_concludes (fun id parent hparent => ?_) fun id hid => ?_).imp
    (fun _ hgrounded => grounded_of_declared fun id hid => hgrounded id ?_) ?_
  · rw [hasParent_eq h hnodup] at hparent
    obtain ⟨entry, hentry, -, hparent⟩ := hparent
    rw [declaredIds_eq h, List.mem_toFinset]
    exact (hcomplete entry hentry).types parent (.parent hparent)
  · rwa [declaredIds_eq h, List.mem_toFinset]
  · rwa [declaredIds_eq h, List.mem_toFinset] at hid
  · rintro e ⟨id, rfl, hcycle⟩
    rw [hasParent_eq h hnodup] at hcycle
    exact .cyclicBases hcycle

/-- A fixture is loaded with all it declares if it is well-formed, and else the error names a flaw
of it. -/
theorem ofFixture_concludes (f : Fixture) :
    Concludes (fun p => f.WellFormed ∧ f.Represents p ∧ ∀ id, p.Grounded id) f.Flaw
      (ofFixture f) := by
  refine (symbolsOf_concludes f).bind fun symbols hsymbols => ?_
  have hdistinct := (checkDistinct_concludes [] (f.types.map TypeEntry.id)).imp
    (R := f.Flaw) (fun _ h => h.1) ?_
  swap
  · rintro e ⟨id, rfl, hduplicate | ⟨_, hmem⟩⟩
    · exact .duplicateType hduplicate
    · cases hmem
  refine hdistinct.bind fun _ hnodup => ?_
  have hkeys : symbols.map Prod.fst = f.symbols.keys :=
    map_fst_of_forall₂ hsymbols fun _ _ hsymbol => hsymbol.1.1
  have hentries : (Table.ofList symbols).entries = symbols :=
    Table.entries_ofList (hkeys ▸ f.symbols.keys_nodup)
  have h : f.Represents ⟨f.types, Table.ofList symbols⟩ :=
    ⟨rfl, hentries.symm ▸ hsymbols.imp fun _ _ hsymbol => hsymbol.1⟩
  refine (Concludes.forM fun entry hentry => checkTypeEntry_concludes h hentry).bind
    fun _ htypes => ?_
  refine (checkAncestors_concludes_flaw h hnodup htypes).bind fun _ hgrounded => ?_
  refine (Concludes.forM fun symbol hsymbol => checkSymbolEntry_concludes h ?_).bind
    fun _ hchecked => ?_
  · obtain ⟨entry, hentry, hkey, hsame⟩ := exists_mem_of_forall₂ h.symbols symbol hsymbol
    rwa [hkey, hsame]
  have hsymbols' : ∀ entry ∈ f.symbols.entries, f.CompleteSymbol entry.2 := by
    intro entry hentry
    obtain ⟨symbol, hsymbol, -, hsame⟩ := exists_mem_of_forall₂ h.symbols.flip entry hentry
    exact hsame ▸ hchecked symbol hsymbol
  refine .ok ⟨⟨hnodup, ?_, ?_, ?_, ?_⟩, h, hgrounded⟩
  · rintro key keyword (⟨hentry, hkeyword⟩ | ⟨hentry, hconstructor, hkeyword⟩)
    · obtain ⟨symbol, -, -, hknown⟩ := exists_mem_of_forall₂ hsymbols.flip _ hentry
      exact hknown keyword hkeyword
    · exact ((hsymbols' _ hentry).constructors _ hconstructor).keywords keyword hkeyword
  · rintro mention id (⟨hentry, hid⟩ | ⟨hentry, hid⟩)
    · exact (htypes _ hentry).types id hid
    · exact (hsymbols' _ hentry).type id hid
  · rintro mention key (⟨hentry, hkey⟩ | ⟨hentry, hkey⟩ | ⟨hentry, hkey⟩ |
      ⟨hentry, hconstructor, hkey⟩)
    · exact (htypes _ hentry).symbol key hkey
    · exact (htypes _ hentry).properties key hkey
    · exact (hsymbols' _ hentry).aliasOf key hkey
    · exact ((hsymbols' _ hentry).constructors _ hconstructor).parameters key hkey
  · intro id hcycle
    rw [← hasParent_eq h hnodup] at hcycle
    exact (hgrounded id).not_ancestor hcycle

/-- A fixture is loaded exactly if it is well-formed, and refused for a cycle only if there is
one. -/
theorem ofFixture_ok_iff (f : Fixture) :
    ((∃ p, ofFixture f = .ok p) ↔ f.WellFormed) ∧
      ∀ id, ofFixture f = .error (.cyclicBases id) → Relation.TransGen f.HasParent id id := by
  cases hload : ofFixture f with
  | ok p => exact ⟨⟨fun _ => (ofFixture_concludes f).of_ok hload |>.1, fun _ => ⟨p, rfl⟩⟩, nofun⟩
  | error e =>
    have hflaw : f.Flaw e := (ofFixture_concludes f).of_error hload
    refine ⟨⟨nofun, fun hwell => absurd hwell hflaw.not_wellFormed⟩, ?_⟩
    rintro id ⟨⟩
    cases hflaw with
    | cyclicBases hcycle => exact hcycle

end Program

end TypeDescription
