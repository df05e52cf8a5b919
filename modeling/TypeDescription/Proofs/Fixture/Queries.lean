import TypeDescription.Fixture.Query
import TypeDescription.Proofs.Fixture.Loading

/-!
# Questions about loaded fixtures

The symbol of a type, its properties and its text are found by recursion over other types.
`Program.FindsSymbol`, `Program.Enumerates` and `Program.Shows` are these recursions without fuel:
a derivation is a run that comes to its end.  `Program.Shows` has no rule for types without a
declaration.

In a loaded fixture the first two end for every type since its ancestors do, and the third because
it stops at the ninth level.  The lists of symbols are the lists of keys of the fixture
(`Program.definite_of_loaded`).
-/

namespace TypeDescription

/-! ## Runs -/

/-- Whether types of a shape have properties, by themselves or from their parents. -/
def Shape.hasMembers : Shape → Bool
  | object _ _ _ => true
  | declared _ _ _ => true
  | reference _ _ => true
  | _ => false

namespace Program

/-- The symbol of a type: its own, or that of the target of a reference. -/
inductive FindsSymbol (p : Program) : TypeId → Option String → Prop
  | undeclared {id : TypeId} (h : p.type? id = none) : FindsSymbol p id none
  | own {id : TypeId} {entry : TypeEntry} {key : String} (h : p.type? id = some entry)
      (hsymbol : entry.symbol = some key) : FindsSymbol p id (p.symbol? key)
  | target {id target : TypeId} {arguments : List TypeId} {entry : TypeEntry}
      {found : Option String} (h : p.type? id = some entry) (hsymbol : entry.symbol = none)
      (hshape : entry.shape = .reference target arguments) (hfound : FindsSymbol p target found) :
      FindsSymbol p id found
  | without {id : TypeId} {entry : TypeEntry} (h : p.type? id = some entry)
      (hsymbol : entry.symbol = none)
      (hshape : ∀ target arguments, entry.shape ≠ .reference target arguments) :
      FindsSymbol p id none

/-- The properties of a type: the declared ones, then those of the bases whose names are new. -/
inductive Enumerates (p : Program) : TypeId → List String → Prop
  | object {id : TypeId} {anonymous : Bool} {calls : Nat} {own : List String}
      (h : p.shape? id = some (.object anonymous calls own)) : Enumerates p id (p.symbolsAt own)
  | declared {id : TypeId} {isInterface : Bool} {own : List String} {bases : List TypeId}
      {inherited : TypeId → List String} (h : p.shape? id = some (.declared isInterface own bases))
      (hbases : ∀ base ∈ bases, Enumerates p base (inherited base)) :
      Enumerates p id
        (bases.foldl (fun taken base => p.addInherited taken (inherited base)) (p.symbolsAt own))
  | target {id target : TypeId} {arguments : List TypeId} {properties : List String}
      (h : p.shape? id = some (.reference target arguments))
      (htarget : Enumerates p target properties) : Enumerates p id properties
  | without {id : TypeId} (h : ∀ shape ∈ p.shape? id, shape.hasMembers = false) :
      Enumerates p id []

/-- The text of a declared type with room for so many levels: the given one, dots where there is no
room, or that of its shape, for which the types that it mentions are shown. -/
inductive Shows (p : Program) : Nat → TypeId → String → Prop
  | given {room : Nat} {id : TypeId} {entry : TypeEntry} {text : String}
      (h : p.type? id = some entry) (hdisplay : entry.display = some text) : Shows p room id text
  | cut {id : TypeId} {entry : TypeEntry} (h : p.type? id = some entry)
      (hdisplay : entry.display = none) : Shows p 0 id "..."
  | derived {room : Nat} {id : TypeId} {entry : TypeEntry} {found : Option String}
      {child : TypeId → String} (h : p.type? id = some entry) (hdisplay : entry.display = none)
      (hfound : p.FindsSymbol id found)
      (hchild : ∀ other, entry.shape.MentionsType other → Shows p room other (child other)) :
      Shows p (room + 1) id (p.shapeText child (found.map p.symbolName) entry.shape)

variable {f : Fixture} {p : Program}

/-! ## Runs come to one end -/

theorem hasParent_iff_of_shape? {id parent : TypeId} {shape : Shape}
    (h : p.shape? id = some shape) : p.HasParent id parent ↔ shape.HasParent parent := by
  rw [HasParent, parents, h]
  exact Shape.mem_parents_iff

theorem shape?_of_type? {id : TypeId} {entry : TypeEntry} (h : p.type? id = some entry) :
    p.shape? id = some entry.shape := by
  rw [shape?, h]
  rfl

theorem FindsSymbol.unique {id : TypeId} {found found' : Option String}
    (h : p.FindsSymbol id found) (h' : p.FindsSymbol id found') : found = found' := by
  induction h with
  | undeclared h => cases h' <;> simp_all
  | own h hsymbol => cases h' <;> simp_all
  | target h hsymbol hshape _ ih => cases h' <;> simp_all
  | without h hsymbol hshape => cases h' <;> simp_all

theorem Enumerates.unique {id : TypeId} {properties properties' : List String}
    (h : p.Enumerates id properties) (h' : p.Enumerates id properties') :
    properties = properties' := by
  induction h generalizing properties' with
  | object h =>
    cases h' with
    | object h' => cases h.symm.trans h'; rfl
    | declared h' => cases h.symm.trans h'
    | target h' => cases h.symm.trans h'
    | without h' => cases h' _ h
  | @declared id _ own bases inherited h _ ih =>
    cases h' with
    | object h' => cases h.symm.trans h'
    | @declared _ _ _ _ inherited' h' hbases' =>
      cases h.symm.trans h'
      refine List.foldl_ext _ _ _ fun taken base hbase => ?_
      rw [ih base hbase (hbases' base hbase)]
    | target h' => cases h.symm.trans h'
    | without h' => cases h' _ h
  | target h _ ih =>
    cases h' with
    | object h' => cases h.symm.trans h'
    | declared h' => cases h.symm.trans h'
    | target h' htarget' =>
      cases h.symm.trans h'
      exact ih htarget'
    | without h' => cases h' _ h
  | without h =>
    cases h' with
    | object h' => cases h _ h'
    | declared h' => cases h _ h'
    | target h' => cases h _ h'
    | without => rfl

theorem shapeText_congr {child child' : TypeId → String} {shape : Shape}
    (h : ∀ id, shape.MentionsType id → child id = child' id) (name : Option String) :
    p.shapeText child name shape = p.shapeText child' name shape := by
  cases shape with
  | union members =>
    exact congrArg " | ".intercalate (List.map_congr_left fun id hid => h id (.union hid))
  | intersection members =>
    exact congrArg " & ".intercalate (List.map_congr_left fun id hid => h id (.intersection hid))
  | reference target arguments =>
    have harguments : arguments.map child = arguments.map child' :=
      List.map_congr_left fun id hid => h id (.argument hid)
    rw [shapeText, shapeText, harguments, h target (.parent .target)]
  | object anonymous calls properties => cases anonymous <;> rfl
  | _ => rfl

theorem Shows.unique {room : Nat} {id : TypeId} {text text' : String} (h : p.Shows room id text)
    (h' : p.Shows room id text') : text = text' := by
  induction h generalizing text' with
  | given h hdisplay => cases h' <;> simp_all
  | cut h hdisplay => cases h' <;> simp_all
  | derived h hdisplay hfound _ ih =>
    cases h' with
    | given h' hdisplay' => simp_all
    | derived h' hdisplay' hfound' hchild' =>
      obtain rfl := Option.some.inj (h.symm.trans h')
      rw [hfound.unique hfound']
      exact shapeText_congr (fun other hother => ih other hother (hchild' other hother)) _

/-! ## The questions are runs -/

theorem findsSymbol_symbolOfType? (hgrounded : ∀ id, p.Grounded id) (id : TypeId) :
    p.FindsSymbol id (p.symbolOfType? id) := by
  refine ancestry_induct (C := fun fuel id => p.FindsSymbol id (p.symbolWithin fuel id)) hgrounded
    (fun fuel id ih => ?_) id
  rw [symbolWithin.eq_def]
  dsimp only
  cases htype : p.type? id with
  | none => exact .undeclared htype
  | some entry =>
    dsimp only
    cases hsymbol : entry.symbol with
    | some key => exact .own htype hsymbol
    | none =>
      cases hshape : entry.shape with
      | reference target arguments =>
        have hparent := (hasParent_iff_of_shape? (hshape ▸ shape?_of_type? htype)).2 .target
        obtain ⟨less, rfl, hfound⟩ := ih target hparent
        exact .target htype hsymbol hshape hfound
      | _ => exact .without htype hsymbol (by simp [hshape])

theorem enumerates_propertiesOfType (hgrounded : ∀ id, p.Grounded id) (id : TypeId) :
    p.Enumerates id (p.propertiesOfType id) := by
  refine ancestry_induct (C := fun fuel id => p.Enumerates id (p.propertiesWithin fuel id))
    hgrounded (fun fuel id ih => ?_) id
  rw [propertiesWithin.eq_def]
  dsimp only
  cases hshape : p.shape? id with
  | none => exact .without (by simp [hshape])
  | some shape =>
    have hparents {parent : TypeId} : p.HasParent id parent ↔ shape.HasParent parent :=
      hasParent_iff_of_shape? hshape
    cases shape with
    | object anonymous calls own => exact .object hshape
    | declared isInterface own bases =>
      cases fuel with
      | zero =>
        have hnone : bases = [] := List.eq_nil_iff_forall_not_mem.2 fun base hbase => by
          obtain ⟨less, hless, -⟩ := ih base (hparents.2 (.base hbase))
          cases hless
        subst hnone
        exact @Enumerates.declared p id isInterface own [] (fun _ => []) hshape nofun
      | succ fuel =>
        refine .declared hshape fun base hbase => ?_
        obtain ⟨less, hless, henumerates⟩ := ih base (hparents.2 (.base hbase))
        cases hless
        exact henumerates
    | reference target arguments =>
      obtain ⟨less, rfl, htarget⟩ := ih target (hparents.2 .target)
      exact .target hshape htarget
    | _ => exact .without (by rw [hshape]; rintro _ ⟨⟩; rfl)

theorem displayWithin_of_type?_eq_none {room : Nat} {id : TypeId} (h : p.type? id = none) :
    p.displayWithin room id = "<missing " ++ id.text ++ ">" := by
  rw [displayWithin.eq_def]
  simp only [h]

theorem displayWithin_of_display {room : Nat} {id : TypeId} {entry : TypeEntry} {text : String}
    (h : p.type? id = some entry) (hdisplay : entry.display = some text) :
    p.displayWithin room id = text := by
  rw [displayWithin.eq_def]
  simp only [h, hdisplay]

theorem displayWithin_zero {id : TypeId} {entry : TypeEntry} (h : p.type? id = some entry)
    (hdisplay : entry.display = none) : p.displayWithin 0 id = "..." := by
  rw [displayWithin.eq_def]
  simp only [h, hdisplay]

theorem displayWithin_succ {room : Nat} {id : TypeId} {entry : TypeEntry}
    (h : p.type? id = some entry) (hdisplay : entry.display = none) :
    p.displayWithin (room + 1) id =
      p.shapeText (p.displayWithin room) ((p.symbolOfType? id).map p.symbolName) entry.shape := by
  rw [displayWithin.eq_def]
  simp only [h, hdisplay]

theorem shows_displayWithin (hgrounded : ∀ id, p.Grounded id)
    (hclosed : ∀ id entry other, p.type? id = some entry → entry.shape.MentionsType other →
      other ∈ p.declaredIds) (room : Nat) {id : TypeId} (hid : id ∈ p.declaredIds) :
    p.Shows room id (p.displayWithin room id) := by
  obtain ⟨entry, htype⟩ := mem_declaredIds_iff.1 hid
  induction room generalizing id entry with
  | zero =>
    cases hdisplay : entry.display with
    | some text =>
      rw [displayWithin_of_display htype hdisplay]
      exact .given htype hdisplay
    | none =>
      rw [displayWithin_zero htype hdisplay]
      exact .cut htype hdisplay
  | succ room ih =>
    cases hdisplay : entry.display with
    | some text =>
      rw [displayWithin_of_display htype hdisplay]
      exact .given htype hdisplay
    | none =>
      rw [displayWithin_succ htype hdisplay]
      refine .derived htype hdisplay (findsSymbol_symbolOfType? hgrounded id) fun other hother => ?_
      have hdeclared := hclosed id entry other htype hother
      obtain ⟨entry', htype'⟩ := mem_declaredIds_iff.1 hdeclared
      exact ih hdeclared entry' htype'

/-! ## Ascending lists -/

theorem pairwise_ascending (ids : List TypeId) :
    (ascending ids).Pairwise fun a b => a.value ≤ b.value := by
  have htrans (a b c : TypeId) (hab : decide (a.value ≤ b.value) = true)
      (hbc : decide (b.value ≤ c.value) = true) : decide (a.value ≤ c.value) = true :=
    decide_eq_true (UInt32.le_trans (of_decide_eq_true hab) (of_decide_eq_true hbc))
  have htotal (a b : TypeId) : (decide (a.value ≤ b.value) || decide (b.value ≤ a.value)) = true :=
    by simpa using UInt32.le_total a.value b.value
  exact (List.pairwise_mergeSort htrans htotal ids).imp fun h => of_decide_eq_true h

/-- Identities in ascending order are the same in whatever order they were before. -/
theorem ascending_eq_of_perm {ids ids' : List TypeId} (h : ids.Perm ids') :
    ascending ids = ascending ids' := by
  have hperm : (ascending ids).Perm (ascending ids') :=
    (List.mergeSort_perm ids _).trans (h.trans (List.mergeSort_perm ids' _).symm)
  refine hperm.eq_of_pairwise (fun a b _ _ hab hba => ?_) (pairwise_ascending ids)
    (pairwise_ascending ids')
  exact congrArg TypeId.mk (UInt32.le_antisymm hab hba)

/-! ## Lists of symbols -/

/-- The symbols that a fixture declares under keys, one for each key. -/
def SymbolsUnder (f : Fixture) (p : Program) : List String → List String → Prop :=
  List.Forall₂ fun key symbol =>
    symbol = key ∧ ∃ s, p.symbols.get? symbol = some s ∧ f.symbols.get? key = some s.entry

theorem symbolsAt_eq_self (h : f.Represents p) {keys : List String}
    (hkeys : ∀ key ∈ keys, key ∈ f.symbols.keys) : p.symbolsAt keys = keys := by
  refine (List.filterMap_congr fun key hkey => ?_).trans List.filterMap_some
  exact if_pos ((containsSymbol_iff h).2 (hkeys key hkey))

theorem symbolsUnder_symbolsAt (h : f.Represents p) {keys : List String}
    (hkeys : ∀ key ∈ keys, key ∈ f.symbols.keys) : SymbolsUnder f p keys (p.symbolsAt keys) := by
  rw [symbolsAt_eq_self h hkeys]
  refine List.forall₂_same.2 fun key hkey => ⟨rfl, ?_⟩
  obtain ⟨entry, hentry⟩ := (Table.mem_keys_iff _ _).1 (hkeys key hkey)
  obtain ⟨s, hs, rfl⟩ := Option.map_eq_some_iff.1 ((map_entry_get? h key).trans hentry)
  exact ⟨s, hs, hentry⟩

/-- No question to a program loops or guesses. -/
structure Definite (f : Fixture) (p : Program) : Prop where
  /-- The search for the symbol of a type ends. -/
  symbol : ∀ id found, p.FindsSymbol id found ↔ found = p.symbolOfType? id
  /-- The enumeration of the properties of a type ends. -/
  properties : ∀ id properties, p.Enumerates id properties ↔ properties = p.propertiesOfType id
  /-- The text of a declared type ends, and no missing type occurs in it. -/
  text : ∀ id ∈ f.types.map TypeEntry.id, ∀ text, p.Shows 9 id text ↔ text = p.display id
  /-- The text of a type that is not declared is fixed. -/
  missing : ∀ id ∉ f.types.map TypeEntry.id, p.display id = "<missing " ++ id.text ++ ">"
  /-- An object type has a symbol for each of its keys, and no others. -/
  object : ∀ entry ∈ f.types, ∀ anonymous calls keys, entry.shape = .object anonymous calls keys →
    SymbolsUnder f p keys (p.declaredProperties entry.id) ∧
      SymbolsUnder f p keys (p.propertiesOfType entry.id)
  /-- A class or interface declares a symbol for each of its keys. -/
  declared : ∀ entry ∈ f.types, ∀ isInterface keys bases,
    entry.shape = .declared isInterface keys bases →
    SymbolsUnder f p keys (p.declaredProperties entry.id)
  /-- A constructor has a symbol for each of its parameters. -/
  parameters : ∀ key entry, f.symbols.get? key = some entry → entry.kind = .classSymbol →
    entry.constructors ≠ [] →
    List.Forall₂ (fun constructor signature =>
        SymbolsUnder f p constructor.parameters signature.parameters)
      entry.constructors (p.constructSignatures key)

theorem constructSignatures_of_get? {key : String} {s : ProgramSymbol}
    (h : p.symbols.get? key = some s) (hkind : s.entry.kind = .classSymbol)
    (hconstructors : s.entry.constructors ≠ []) :
    p.constructSignatures key = s.entry.constructors.map fun constructor =>
      ⟨knownModifiers constructor.modifiers, p.symbolsAt constructor.parameters⟩ := by
  rw [constructSignatures, h]
  dsimp only
  rw [if_neg (not_not.2 hkind), if_neg (by simpa using hconstructors)]

theorem definite_of_loaded (h : ofFixture f = .ok p) : Definite f p := by
  obtain ⟨hwell, hsame, hgrounded⟩ := (ofFixture_concludes f).of_ok h
  have hown {entry : TypeEntry} (hentry : entry ∈ f.types) {keys : List String}
      (hkeys : ∀ key ∈ keys, entry.shape.HasProperty key) :
      SymbolsUnder f p keys (p.symbolsAt keys) :=
    symbolsUnder_symbolsAt hsame fun key hkey =>
      hwell.symbols_declared _ key (.property hentry (hkeys key hkey))
  have hclosed : ∀ id entry other, p.type? id = some entry → entry.shape.MentionsType other →
      other ∈ p.declaredIds := by
    intro id entry other htype hother
    have hentry : entry ∈ f.types := hsame.types_eq ▸ List.mem_of_find?_eq_some htype
    rw [declaredIds_eq hsame, List.mem_toFinset]
    exact hwell.types_declared _ other (.shape hentry hother)
  constructor
  case symbol =>
    refine fun id found => ⟨fun hfound => ?_, fun hfound => ?_⟩
    · exact hfound.unique (findsSymbol_symbolOfType? hgrounded id)
    · exact hfound ▸ findsSymbol_symbolOfType? hgrounded id
  case properties =>
    refine fun id properties => ⟨fun hproperties => ?_, fun hproperties => ?_⟩
    · exact hproperties.unique (enumerates_propertiesOfType hgrounded id)
    · exact hproperties ▸ enumerates_propertiesOfType hgrounded id
  case text =>
    intro id hid text
    rw [← List.mem_toFinset, ← declaredIds_eq hsame] at hid
    have hshows := shows_displayWithin hgrounded hclosed 9 hid
    exact ⟨fun htext => htext.unique hshows, fun htext => htext ▸ hshows⟩
  case missing =>
    intro id hid
    rw [← List.mem_toFinset, ← declaredIds_eq hsame, ← type?_eq_none_iff] at hid
    rw [display, displayWithin.eq_def]
    dsimp only
    rw [hid]
  case object =>
    intro entry hentry anonymous calls keys hshape
    have hsymbols : SymbolsUnder f p keys (p.symbolsAt keys) :=
      hown hentry fun key hkey => hshape ▸ .object hkey
    have hshape' : p.shape? entry.id = some (.object anonymous calls keys) :=
      hshape ▸ shape?_of_mem hsame hwell hentry
    have hproperties := (Enumerates.object hshape').unique
      (enumerates_propertiesOfType hgrounded entry.id)
    refine ⟨?_, hproperties ▸ hsymbols⟩
    rw [declaredProperties, hshape']
    exact hsymbols
  case declared =>
    intro entry hentry isInterface keys bases hshape
    rw [declaredProperties, shape?_of_mem hsame hwell hentry, hshape]
    exact hown hentry fun key hkey => hshape ▸ .declared hkey
  case parameters =>
    intro key entry hentry hkind hconstructors
    obtain ⟨s, hs, rfl⟩ := Option.map_eq_some_iff.1 ((map_entry_get? hsame key).trans hentry)
    rw [constructSignatures_of_get? hs hkind hconstructors, List.forall₂_map_right_iff,
      List.forall₂_same]
    intro constructor hconstructor
    refine symbolsUnder_symbolsAt hsame fun parameter hparameter => ?_
    exact hwell.symbols_declared _ parameter
      (.parameter ((Table.get?_eq_some_iff _).1 hentry) hconstructor hparameter)

/-- A class with two ways to the same interface, one of them through a reference whose argument
contains itself. -/
def entangled : Fixture where
  types :=
    [⟨⟨1⟩, .declared false ["A.x"] [⟨2⟩, ⟨3⟩], some "A", none, none⟩,
      ⟨⟨2⟩, .reference ⟨4⟩ [⟨5⟩], none, none, none⟩,
      ⟨⟨3⟩, .declared false ["B.x", "B.z"] [⟨4⟩], none, none, none⟩,
      ⟨⟨4⟩, .declared true ["R.y", "R.z"] [], some "R", none, none⟩,
      ⟨⟨5⟩, .union [⟨5⟩, ⟨2⟩], none, none, none⟩]
  symbols := Table.ofList
    [("A", ⟨none, .classSymbol, some ⟨1⟩, [], none, none, none, [⟨["public"], ["A.x", "B.z"]⟩]⟩),
      ("R", ⟨none, .interfaceSymbol, some ⟨4⟩, [], none, none, none, []⟩),
      ("A.x", ⟨none, .property, some ⟨5⟩, ["readonly"], none, none, none, []⟩),
      ("B.x", ⟨none, .property, none, [], none, none, none, []⟩),
      ("B.z", ⟨none, .property, none, [], none, none, none, []⟩),
      ("R.y", ⟨none, .property, none, [], none, none, none, []⟩),
      ("R.z", ⟨none, .property, none, [], none, none, none, []⟩)]

theorem definite_entangled : ∃ p, ofFixture entangled = .ok p ∧ Definite entangled p := by
  obtain ⟨p, hload⟩ := exists_of_isOk (m := ofFixture entangled) (by decide +kernel)
  exact ⟨p, hload, definite_of_loaded hload⟩

end Program

end TypeDescription
