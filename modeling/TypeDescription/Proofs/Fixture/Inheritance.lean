import TypeDescription.Proofs.Fixture.Queries

/-!
# Inherited properties

A class or interface has its own properties first, then those of its bases whose names are new.
`Program.find?_addInherited` says which symbol a name stands for after one base was added: the one
that was there, or else the first of the base.  All else about names follows from it.

With the ancestors of a type come all names that they declare, each of the inherited ones once, from
the first base that has it (`Program.inherits_of_loaded`).
-/

namespace TypeDescription

namespace Program

variable {f : Fixture} {p : Program} {own taken inherited : List String} {bases : List TypeId}
  {name : String}

/-! ## One base -/

/-- The names of symbols. -/
def names (p : Program) (keys : List String) : List String :=
  keys.map p.symbolName

/-- The first symbol with a name. -/
def firstNamed (p : Program) (keys : List String) (name : String) : Option String :=
  keys.find? fun key => p.symbolName key == name

theorem mem_names_iff {keys : List String} :
    name ∈ p.names keys ↔ (p.firstNamed keys name).isSome = true := by
  simp [names, firstNamed]

theorem firstNamed_append (keys keys' : List String) (name : String) :
    p.firstNamed (keys ++ keys') name = (p.firstNamed keys name).or (p.firstNamed keys' name) :=
  List.find?_append

theorem firstNamed_singleton_of_ne {key : String} (h : p.symbolName key ≠ name) :
    p.firstNamed [key] name = none := by
  simp [firstNamed, h]

theorem any_symbolName_iff {key : String} :
    (taken.any fun other => p.symbolName other == p.symbolName key) = true ↔
      p.symbolName key ∈ p.names taken := by
  simp [names]

theorem addInherited_cons (p : Program) (taken inherited : List String) (key : String) :
    p.addInherited taken (key :: inherited) =
      p.addInherited (if p.symbolName key ∈ p.names taken then taken else taken ++ [key])
        inherited := by
  simp only [addInherited, List.foldl_cons, any_symbolName_iff]

/-- A name stands for what it stood for, or else for the first inherited symbol. -/
theorem firstNamed_addInherited (taken inherited : List String) (name : String) :
    p.firstNamed (p.addInherited taken inherited) name =
      (p.firstNamed taken name).or (p.firstNamed inherited name) := by
  induction inherited generalizing taken with
  | nil => exact Option.or_none.symm
  | cons key inherited ih =>
    have hcons : p.firstNamed (key :: inherited) name =
        (p.firstNamed [key] name).or (p.firstNamed inherited name) :=
      firstNamed_append [key] inherited name
    rw [addInherited_cons, ih, hcons, ← Option.or_assoc]
    congr 1
    split
    · next htaken =>
      rcases eq_or_ne (p.symbolName key) name with rfl | hne
      · obtain ⟨first, hfirst⟩ := Option.isSome_iff_exists.1 (mem_names_iff.1 htaken)
        rw [hfirst, Option.some_or]
      · rw [firstNamed_singleton_of_ne hne, Option.or_none]
    · exact firstNamed_append taken [key] name

/-- What is listed begins with some symbols, and each one after them has a new name. -/
def BeginsWith (p : Program) (own properties : List String) : Prop :=
  ∃ further, properties = own ++ further ∧ (p.names further).Nodup ∧
    (p.names own).Disjoint (p.names further)

theorem BeginsWith.refl (own : List String) : p.BeginsWith own own :=
  ⟨[], (List.append_nil own).symm, List.nodup_nil, List.disjoint_nil_right _⟩

theorem BeginsWith.concat {key : String} (h : p.BeginsWith own taken)
    (hkey : p.symbolName key ∉ p.names taken) : p.BeginsWith own (taken ++ [key]) := by
  obtain ⟨further, rfl, hnodup, hdisjoint⟩ := h
  rw [names, List.map_append, List.mem_append, not_or] at hkey
  refine ⟨further ++ [key], List.append_assoc .., ?_, ?_⟩
  · rw [names, List.map_append]
    exact List.nodup_append'.2 ⟨hnodup, List.nodup_singleton _, by simpa using hkey.2⟩
  · rw [names, names, List.map_append, List.disjoint_append_right]
    exact ⟨hdisjoint, by simpa using hkey.1⟩

theorem BeginsWith.addInherited (h : p.BeginsWith own taken) :
    p.BeginsWith own (p.addInherited taken inherited) := by
  induction inherited generalizing taken with
  | nil => exact h
  | cons key inherited ih =>
    rw [addInherited_cons]
    split
    · exact ih h
    · next hkey => exact ih (h.concat hkey)

/-! ## All bases -/

theorem propertiesOfType_of_declared (hgrounded : ∀ id, p.Grounded id) {id : TypeId}
    {isInterface : Bool} (hshape : p.shape? id = some (.declared isInterface own bases)) :
    p.propertiesOfType id =
      bases.foldl (fun taken base => p.addInherited taken (p.propertiesOfType base))
        (p.symbolsAt own) :=
  (enumerates_propertiesOfType hgrounded id).unique
    (.declared hshape fun base _ => enumerates_propertiesOfType hgrounded base)

theorem firstNamed_foldl (inherited : TypeId → List String) (own : List String)
    (bases : List TypeId) (name : String) :
    p.firstNamed (bases.foldl (fun taken base => p.addInherited taken (inherited base)) own) name =
      (p.firstNamed own name).or
        (bases.findSome? fun base => p.firstNamed (inherited base) name) := by
  induction bases generalizing own with
  | nil => exact Option.or_none.symm
  | cons base bases ih =>
    rw [List.foldl_cons, ih, firstNamed_addInherited, Option.or_assoc, List.findSome?_cons]
    cases p.firstNamed (inherited base) name <;> rfl

theorem beginsWith_foldl (inherited : TypeId → List String) (h : p.BeginsWith own taken)
    (bases : List TypeId) :
    p.BeginsWith own
      (bases.foldl (fun taken base => p.addInherited taken (inherited base)) taken) := by
  induction bases generalizing taken with
  | nil => exact h
  | cons base bases ih => exact ih h.addInherited

/-! ## All ancestors -/

/-- The names of the properties of a type are those that it declares and those of its parents. -/
theorem mem_names_iff_of_parents (hgrounded : ∀ id, p.Grounded id) (id : TypeId) :
    name ∈ p.names (p.propertiesOfType id) ↔
      name ∈ p.names (p.declaredProperties id) ∨
        ∃ parent, p.HasParent id parent ∧ name ∈ p.names (p.propertiesOfType parent) := by
  have hrun := enumerates_propertiesOfType hgrounded
  cases hshape : p.shape? id with
  | none =>
    have hnone := (hrun id).unique (.without (by simp [hshape]))
    simp [hnone, declaredProperties, HasParent, parents, hshape, names]
  | some shape =>
    simp only [declaredProperties, hshape, hasParent_iff_of_shape? hshape]
    cases shape with
    | object anonymous calls own =>
      have hparents (parent : TypeId) : ¬ (Shape.object anonymous calls own).HasParent parent := by
        rintro ⟨⟩
      simp only [(hrun id).unique (.object hshape), hparents, false_and, exists_false, or_false]
    | declared isInterface own bases =>
      rw [propertiesOfType_of_declared hgrounded hshape]
      simp only [mem_names_iff, firstNamed_foldl, Option.isSome_or, Bool.or_eq_true,
        List.findSome?_isSome_iff]
      refine or_congr_right ⟨?_, ?_⟩
      · rintro ⟨base, hbase, hname⟩
        exact ⟨base, .base hbase, hname⟩
      · rintro ⟨base, ⟨hbase⟩, hname⟩
        exact ⟨base, hbase, hname⟩
    | reference target arguments =>
      rw [(hrun id).unique (.target hshape (hrun target))]
      refine ⟨fun hname => .inr ⟨target, .target, hname⟩, ?_⟩
      rintro (hname | ⟨_, ⟨⟩, hname⟩)
      · cases hname
      · exact hname
    | _ =>
      have hnone := (hrun id).unique (.without (by rw [hshape]; rintro _ ⟨⟩; rfl))
      rw [hnone]
      refine ⟨Or.inl, ?_⟩
      rintro (hname | ⟨_, ⟨⟩, _⟩)
      exact hname

/-- The names of the properties of a type are those that it and its ancestors declare. -/
theorem mem_names_propertiesOfType_iff (hgrounded : ∀ id, p.Grounded id) (id : TypeId) :
    name ∈ p.names (p.propertiesOfType id) ↔
      ∃ ancestor, Relation.ReflTransGen p.HasParent id ancestor ∧
        name ∈ p.names (p.declaredProperties ancestor) := by
  induction hgrounded id with
  | intro id _ ih =>
    rw [mem_names_iff_of_parents hgrounded]
    simp only [Relation.ReflTransGen.cases_head_iff (a := id)]
    constructor
    · rintro (hname | ⟨parent, hparent, hname⟩)
      · exact ⟨id, .inl rfl, hname⟩
      · obtain ⟨ancestor, hancestor, hname⟩ := (ih parent hparent).1 hname
        exact ⟨ancestor, .inr ⟨parent, hparent, hancestor⟩, hname⟩
    · rintro ⟨ancestor, rfl | ⟨parent, hparent, hancestor⟩, hname⟩
      · exact .inl hname
      · exact .inr ⟨parent, hparent, (ih parent hparent).2 ⟨ancestor, hancestor, hname⟩⟩

/-- A type has its own properties and those of its bases. -/
structure Inherits (f : Fixture) (p : Program) (id : TypeId) (own : List String)
    (bases : List TypeId) : Prop where
  /-- The own symbols come first, and each one after them has a name that is new. -/
  beginsWith : p.BeginsWith own (p.propertiesOfType id)
  /-- The names are those that the type and its ancestors declare. -/
  names : ∀ name, name ∈ p.names (p.propertiesOfType id) ↔
    ∃ ancestor, Relation.ReflTransGen f.HasParent id ancestor ∧
      name ∈ p.names (p.declaredProperties ancestor)
  /-- What is inherited comes from the first base that has a symbol with its name. -/
  first : ∀ name ∉ p.names own, p.firstNamed (p.propertiesOfType id) name =
    bases.findSome? fun base => p.firstNamed (p.propertiesOfType base) name

/-- The properties of a class or interface are its own and all inherited ones, each of them
once. -/
theorem inherits_of_loaded (h : ofFixture f = .ok p) {entry : TypeEntry} (hentry : entry ∈ f.types)
    {isInterface : Bool} (hshape : entry.shape = .declared isInterface own bases) :
    Inherits f p entry.id own bases := by
  obtain ⟨hwell, hsame, hgrounded⟩ := (ofFixture_concludes f).of_ok h
  have hown : p.symbolsAt own = own :=
    symbolsAt_eq_self hsame fun key hkey =>
      hwell.symbols_declared _ key (.property hentry (hshape ▸ .declared hkey))
  have hproperties := propertiesOfType_of_declared hgrounded
    (hshape ▸ shape?_of_mem hsame hwell hentry)
  rw [hown] at hproperties
  refine ⟨?_, fun name => ?_, fun name hname => ?_⟩
  · rw [hproperties]
    exact beginsWith_foldl _ (.refl own) bases
  · rw [mem_names_propertiesOfType_iff hgrounded, hasParent_eq hsame hwell.ids_nodup]
  · have hnone : p.firstNamed own name = none := by
      rwa [mem_names_iff, Bool.not_eq_true, Option.isSome_eq_false_iff,
        Option.isNone_iff_eq_none] at hname
    rw [hproperties, firstNamed_foldl, hnone, Option.none_or]

theorem inherits_entangled : ∃ p, ofFixture entangled = .ok p ∧
    p.propertiesOfType ⟨1⟩ = ["A.x", "R.y", "R.z"] ∧
    Inherits entangled p ⟨1⟩ ["A.x"] [⟨2⟩, ⟨3⟩] := by
  have hmade : ((ofFixture entangled).toOption.map fun p => p.propertiesOfType ⟨1⟩) =
      some ["A.x", "R.y", "R.z"] := by decide +kernel
  obtain ⟨p, hload, hproperties⟩ := Option.map_eq_some_iff.1 hmade
  have hload := toOption_eq_some_iff.1 hload
  exact ⟨p, hload, hproperties, inherits_of_loaded hload List.mem_cons_self rfl⟩

end Program

end TypeDescription
