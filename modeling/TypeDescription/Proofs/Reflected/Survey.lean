import TypeDescription.Fixture.Query
import TypeDescription.Proofs.Run
import TypeDescription.Reflected.Reflect

/-!
# Surveys of a checked program

What the walk of a type would come to if nothing ever stopped it.  A `Finding` is a
type inside another one, or a datum that the host owes and does not give;
`TypeHost.inside` lists the findings inside a type in the order in which they are
asked for.  `TypeHost.Surveys` is the depth-first walk of an agenda of findings, each
with its distance from the root: it goes into a type where it first meets it.

* `Surveys.settles_agenda` and `Surveys.settles_inside`: a survey comes to its agenda and
  to what is inside of what it comes to, but for what it passes; `Surveys.origin`: it
  comes to nothing else.
* `Program.exists_surveys`: every agenda of types of a program has a survey, for only
  the declared types have anything inside.
* `Surveys.exists_type_iff`: the types that it comes to are those that the root leads to.
-/

namespace TypeDescription

variable {τ σ : Type}

/-! ## What is inside a type -/

namespace TypeFlags

/-- The flags that reflection knows, in the order in which it asks for them. -/
def known : List TypeFlags :=
  [any, string, number, boolean, booleanLiteral, esSymbol, void, undefined, null, never,
    unknown, object, union]

/-- The first known flag. -/
def first? (flags : TypeFlags) : Option TypeFlags :=
  known.find? fun flag => flags.contains flag

end TypeFlags

/-- A type inside another one, or a datum that the host owes for a type. -/
inductive Finding (τ : Type) where
  | type (type : τ)
  | missing (what : HostDatum) (id : TypeId)
deriving DecidableEq

namespace TypeHost

/-- An object type: no literal, and `object` is the first of its flags. -/
def isObject (host : TypeHost τ σ) (type : τ) : Bool :=
  !(host.typeFlags type).isPerPosition && (host.typeFlags type).first? == some .object

/-- A union type. -/
def isUnion (host : TypeHost τ σ) (type : τ) : Bool :=
  !(host.typeFlags type).isPerPosition && (host.typeFlags type).first? == some .union

/-- A generic type with its arguments. -/
def isReference (host : TypeHost τ σ) (type : τ) : Bool :=
  host.isObject type && (host.objectFlags type).contains .reference

/-- Whether an object type with a symbol is described by its properties: it is no
method, declares no value and cannot be called. -/
def hasShape (host : TypeHost τ σ) (type : τ) (symbol : σ) : Bool :=
  !(host.symbolFlags symbol).contains .method && !host.hasValueDeclaration symbol &&
    host.callSignatureCount type == 0

/-- A property: its type, or that the host owes it. -/
def propertyFinding (host : TypeHost τ σ) (owner : τ) (symbol : σ) : Finding τ :=
  match host.typeOfSymbol? symbol with
  | some type => .type type
  | none => .missing .propertyType (host.typeId owner)

/-- What the host owes for a reference once its arguments are known: its target, and
the symbol of that if it is no tuple. -/
def owed (host : TypeHost τ σ) (type : τ) : List (Finding τ) :=
  match host.referenceTarget? type with
  | none => [.missing .referenceTarget (host.typeId type)]
  | some target =>
      if (host.objectFlags target).contains .tuple then
        []
      else
        match host.symbol? target with
        | none => [.missing .symbol (host.typeId type)]
        | some _ => []

/-- What is inside an object type that is no reference. -/
def objectFindings (host : TypeHost τ σ) (type : τ) : List (Finding τ) :=
  match host.symbol? type with
  | none => [.missing .symbol (host.typeId type)]
  | some symbol =>
      if host.hasShape type symbol then
        (host.properties type).map (host.propertyFinding type)
      else
        []

/-- What is inside a type, in the order in which it is asked for. -/
def inside (host : TypeHost τ σ) (type : τ) : List (Finding τ) :=
  if host.isUnion type then
    (host.unionMembers type).map .type
  else if host.isReference type then
    (host.typeArguments type).map .type ++ host.owed type
  else if host.isObject type then
    host.objectFindings type
  else
    []

/-- An object type that is described by its properties. -/
def IsPlain (host : TypeHost τ σ) (type : τ) : Prop :=
  host.isObject type = true ∧ host.isReference type = false ∧
    ∃ symbol, host.symbol? type = some symbol ∧ host.hasShape type symbol = true

/-- An object type without a symbol, or a reference to a type that is no tuple and has
none. -/
def LacksSymbol (host : TypeHost τ σ) (type : τ) : Prop :=
  host.isObject type = true ∧
    if host.isReference type = true then
      ∃ target, host.referenceTarget? type = some target ∧
        (host.objectFlags target).contains .tuple = false ∧ host.symbol? target = none
    else
      host.symbol? type = none

/-- The types that a type leads to: itself, and from there members of unions, arguments
of references and types of properties of plain objects. -/
inductive Leads (host : TypeHost τ σ) (root : τ) : τ → Prop
  | root : Leads host root root
  | member {type member : τ} : Leads host root type → host.isUnion type = true →
      member ∈ host.unionMembers type → Leads host root member
  | argument {type argument : τ} : Leads host root type → host.isReference type = true →
      argument ∈ host.typeArguments type → Leads host root argument
  | property {type inner : τ} {symbol : σ} : Leads host root type → host.IsPlain type →
      symbol ∈ host.properties type → host.typeOfSymbol? symbol = some inner →
        Leads host root inner

section Inside

variable {host : TypeHost τ σ} {type : τ}

theorem inside_of_isUnion (h : host.isUnion type = true) :
    host.inside type = (host.unionMembers type).map .type := by
  simp [inside, h]

theorem not_isPerPosition_of_isUnion (h : host.isUnion type = true) :
    ¬ (host.typeFlags type).isPerPosition = true := by
  simp only [isUnion, Bool.and_eq_true, Bool.not_eq_true'] at h
  simp [h.1]

theorem not_isPerPosition_of_isObject (h : host.isObject type = true) :
    ¬ (host.typeFlags type).isPerPosition = true := by
  simp only [isObject, Bool.and_eq_true, Bool.not_eq_true'] at h
  simp [h.1]

theorem isUnion_of_isObject (h : host.isObject type = true) : host.isUnion type = false := by
  simp only [isObject, isUnion, Bool.and_eq_true, beq_iff_eq] at h ⊢
  rw [h.1, h.2]
  rfl

theorem isObject_of_isReference (h : host.isReference type = true) :
    host.isObject type = true := by
  simp only [isReference, Bool.and_eq_true] at h
  exact h.1

theorem inside_of_isReference (h : host.isReference type = true) :
    host.inside type = (host.typeArguments type).map .type ++ host.owed type := by
  simp [inside, isUnion_of_isObject (isObject_of_isReference h), h]

theorem inside_of_isObject (h : host.isObject type = true) (href : host.isReference type = false) :
    host.inside type = host.objectFindings type := by
  simp [inside, isUnion_of_isObject h, href, h]

theorem inside_of_isPlain (h : host.IsPlain type) :
    host.inside type = (host.properties type).map (host.propertyFinding type) := by
  obtain ⟨hobject, href, symbol, hsymbol, hshape⟩ := h
  rw [inside_of_isObject hobject href, objectFindings, hsymbol]
  exact if_pos hshape

/-- The ways in which a finding may be inside a type. -/
theorem mem_inside_cases {finding : Finding τ} (h : finding ∈ host.inside type) :
    (host.isUnion type = true ∧ ∃ member ∈ host.unionMembers type, finding = .type member) ∨
    (host.isReference type = true ∧
      ((∃ argument ∈ host.typeArguments type, finding = .type argument) ∨
        finding ∈ host.owed type)) ∨
    (host.LacksSymbol type ∧ finding = .missing .symbol (host.typeId type)) ∨
    (host.IsPlain type ∧
      ∃ symbol ∈ host.properties type, finding = host.propertyFinding type symbol) := by
  unfold inside at h
  split_ifs at h with hunion href hobject
  · obtain ⟨member, hmember, rfl⟩ := List.mem_map.1 h
    exact .inl ⟨hunion, member, hmember, rfl⟩
  · rcases List.mem_append.1 h with h | h
    · obtain ⟨argument, hargument, rfl⟩ := List.mem_map.1 h
      exact .inr (.inl ⟨href, .inl ⟨argument, hargument, rfl⟩⟩)
    · exact .inr (.inl ⟨href, .inr h⟩)
  · have href : host.isReference type = false := by simpa using href
    unfold objectFindings at h
    cases hsymbol : host.symbol? type with
    | none =>
      rw [hsymbol] at h
      refine .inr (.inr (.inl ⟨⟨hobject, ?_⟩, List.mem_singleton.1 h⟩))
      simpa [href] using hsymbol
    | some symbol =>
      simp only [hsymbol] at h
      split_ifs at h with hshape
      · obtain ⟨member, hmember, rfl⟩ := List.mem_map.1 h
        exact .inr (.inr (.inr ⟨⟨hobject, href, symbol, hsymbol, hshape⟩, member, hmember, rfl⟩))
      · cases h
  · cases h

/-- Nothing but data is owed. -/
theorem not_type_mem_owed {inner : τ} : .type inner ∉ host.owed type := by
  unfold owed
  cases host.referenceTarget? type with
  | none => simp
  | some target =>
    dsimp only
    split
    · simp
    · cases host.symbol? target <;> simp

/-- What is owed for a reference with a target is the symbol of that. -/
theorem lacksSymbol_of_mem_owed {finding : Finding τ} {target : τ}
    (href : host.isReference type = true) (htarget : host.referenceTarget? type = some target)
    (h : finding ∈ host.owed type) : host.LacksSymbol type := by
  refine ⟨isObject_of_isReference href, ?_⟩
  rw [if_pos href]
  rw [owed, htarget] at h
  dsimp only at h
  split_ifs at h with htuple
  · cases h
  · cases hsymbol : host.symbol? target with
    | none => exact ⟨target, htarget, by simpa using htuple, hsymbol⟩
    | some symbol =>
      rw [hsymbol] at h
      cases h

/-- A type leads to the types inside. -/
theorem Leads.inside {root inner : τ} (h : host.Leads root type)
    (hinner : .type inner ∈ host.inside type) : host.Leads root inner := by
  rcases mem_inside_cases hinner with ⟨hunion, member, hmember, heq⟩ | ⟨href, hfound⟩ | ⟨_, heq⟩ |
    ⟨hplain, symbol, hsymbol, heq⟩
  · obtain rfl := Finding.type.inj heq
    exact .member h hunion hmember
  · rcases hfound with ⟨argument, hargument, heq⟩ | howed
    · obtain rfl := Finding.type.inj heq
      exact .argument h href hargument
    · exact absurd howed not_type_mem_owed
  · cases heq
  · unfold propertyFinding at heq
    split at heq
    · next type' htype =>
      obtain rfl := Finding.type.inj heq
      exact .property h hplain hsymbol htype
    · cases heq

end Inside

/-! ## Surveys -/

/-- Whether a walk that has met some types goes past a type: it is one of them, or a
literal. -/
def Passes (host : TypeHost τ σ) (met : List TypeId) (type : τ) : Prop :=
  host.typeId type ∈ met ∨ (host.typeFlags type).isPerPosition = true

instance (host : TypeHost τ σ) (met : List TypeId) (type : τ) : Decidable (host.Passes met type) :=
  inferInstanceAs (Decidable (_ ∨ _))

/-- The depth-first walk of an agenda: the findings that it comes to, in order, each with
its distance from the root, when the types `met` were gone into before. -/
inductive Surveys (host : TypeHost τ σ) :
    List TypeId → List (Nat × Finding τ) → List (Nat × Finding τ) → Prop
  | done {met : List TypeId} : Surveys host met [] []
  | pass {met : List TypeId} {d : Nat} {type : τ} {rest visits : List (Nat × Finding τ)} :
      host.Passes met type → Surveys host met rest visits →
        Surveys host met ((d, .type type) :: rest) visits
  | enter {met : List TypeId} {d : Nat} {type : τ} {rest visits : List (Nat × Finding τ)} :
      ¬ host.Passes met type →
        Surveys host (host.typeId type :: met)
          ((host.inside type).map (Prod.mk (d + 1)) ++ rest) visits →
        Surveys host met ((d, .type type) :: rest) ((d, .type type) :: visits)
  | missing {met : List TypeId} {d : Nat} {what : HostDatum} {id : TypeId}
      {rest visits : List (Nat × Finding τ)} : Surveys host met rest visits →
        Surveys host met ((d, .missing what id) :: rest) ((d, .missing what id) :: visits)

/-- Only finitely many types have anything inside, so every agenda has a survey. -/
theorem exists_surveys (host : TypeHost τ σ) (ids : Finset TypeId)
    (hids : ∀ type, host.inside type ≠ [] → host.typeId type ∈ ids) (met : List TypeId)
    (agenda : List (Nat × Finding τ)) : ∃ visits, host.Surveys met agenda visits := by
  refine agenda_induct (C := fun met agenda => ∃ visits, host.Surveys met agenda visits)
    ids (fun _ => ⟨[], .done⟩) (fun met visit rest => ?_) met agenda
  obtain ⟨d, type | ⟨what, id⟩⟩ := visit
  · by_cases hpass : host.Passes met type
    · exact .inl fun ⟨visits, S⟩ => ⟨visits, .pass hpass S⟩
    · have hempty : host.typeId type ∉ ids → (host.inside type).map (Prod.mk (d + 1)) = [] := by
        intro hmem
        rw [List.map_eq_nil_iff]
        by_contra hne
        exact hmem (hids type hne)
      exact .inr ⟨host.typeId type, _, fun hmet => hpass (.inl hmet), hempty,
        fun ⟨_, S⟩ => ⟨_, .enter hpass S⟩⟩
  · exact .inl fun ⟨_, S⟩ => ⟨_, .missing S⟩

section Surveys

variable {host : TypeHost τ σ} {met : List TypeId} {agenda rest visits : List (Nat × Finding τ)}
  {d : Nat} {type : τ} {what : HostDatum} {id : TypeId} {finding : Finding τ}

theorem Surveys.done_inv (S : host.Surveys met [] visits) : visits = [] := by
  cases S
  rfl

theorem Surveys.pass_inv (S : host.Surveys met ((d, .type type) :: rest) visits)
    (hpass : host.Passes met type) : host.Surveys met rest visits := by
  cases S with
  | pass _ S => exact S
  | enter h _ => exact absurd hpass h

theorem Surveys.enter_inv (S : host.Surveys met ((d, .type type) :: rest) visits)
    (hpass : ¬ host.Passes met type) :
    ∃ later, visits = (d, .type type) :: later ∧
      host.Surveys (host.typeId type :: met)
        ((host.inside type).map (Prod.mk (d + 1)) ++ rest) later := by
  cases S with
  | pass h _ => exact absurd h hpass
  | enter _ S => exact ⟨_, rfl, S⟩

theorem Surveys.missing_inv (S : host.Surveys met ((d, .missing what id) :: rest) visits) :
    ∃ later, visits = (d, .missing what id) :: later ∧ host.Surveys met rest later := by
  cases S with
  | missing S => exact ⟨_, rfl, S⟩

/-- A survey does not go into literals. -/
theorem Surveys.not_isPerPosition (S : host.Surveys met agenda visits)
    (hvisit : (d, .type type) ∈ visits) : ¬ (host.typeFlags type).isPerPosition = true := by
  induction S with
  | done => cases hvisit
  | pass _ _ ih => exact ih hvisit
  | missing _ ih =>
    rcases List.mem_cons.1 hvisit with heq | hvisit
    · cases heq
    · exact ih hvisit
  | enter hpass _ ih =>
    rcases List.mem_cons.1 hvisit with heq | hvisit
    · cases heq
      exact fun hflags => hpass (.inr hflags)
    · exact ih hvisit

/-- What a survey comes to was on its agenda, or it is inside a type that it comes to. -/
theorem Surveys.origin (S : host.Surveys met agenda visits) (hvisit : (d, finding) ∈ visits) :
    (d, finding) ∈ agenda ∨
      ∃ outer type, d = outer + 1 ∧ (outer, .type type) ∈ visits ∧ finding ∈ host.inside type := by
  induction S with
  | done => cases hvisit
  | pass _ _ ih =>
    refine (ih hvisit).imp_left fun h => List.mem_cons_of_mem _ h
  | missing _ ih =>
    rcases List.mem_cons.1 hvisit with heq | hvisit
    · exact .inl (heq ▸ List.mem_cons_self)
    · refine (ih hvisit).imp (fun h => List.mem_cons_of_mem _ h) ?_
      rintro ⟨outer, type, hd, htype, hfinding⟩
      exact ⟨outer, type, hd, List.mem_cons_of_mem _ htype, hfinding⟩
  | @enter met depth owner rest visits _ _ ih =>
    rcases List.mem_cons.1 hvisit with heq | hvisit
    · exact .inl (heq ▸ List.mem_cons_self)
    · rcases ih hvisit with hagenda | ⟨outer, type, hd, htype, hfinding⟩
      · rcases List.mem_append.1 hagenda with hinside | hrest
        · obtain ⟨f, hf, heq⟩ := List.mem_map.1 hinside
          obtain ⟨rfl, rfl⟩ := Prod.mk.inj heq
          exact .inr ⟨depth, owner, rfl, List.mem_cons_self, hf⟩
        · exact .inl (List.mem_cons_of_mem _ hrest)
      · exact .inr ⟨outer, type, hd, List.mem_cons_of_mem _ htype, hfinding⟩

/-- That a walk which had met some types has come to a finding, or passed it. -/
inductive Settles (host : TypeHost τ σ) (met : List TypeId) (visits : List (Nat × Finding τ)) :
    Finding τ → Prop
  | passed {type : τ} : host.Passes met type → Settles host met visits (.type type)
  | met {d : Nat} {type other : τ} : (d, .type other) ∈ visits →
      host.typeId other = host.typeId type → Settles host met visits (.type type)
  | missing {d : Nat} {what : HostDatum} {id : TypeId} : (d, .missing what id) ∈ visits →
      Settles host met visits (.missing what id)

theorem Settles.cons (h : host.Settles met visits finding) (visit : Nat × Finding τ) :
    host.Settles met (visit :: visits) finding := by
  cases h with
  | passed hpass => exact .passed hpass
  | met hvisit heq => exact .met (List.mem_cons_of_mem _ hvisit) heq
  | missing hvisit => exact .missing (List.mem_cons_of_mem _ hvisit)

/-- What is settled after a type was met is settled before, if the type is come to. -/
theorem Settles.of_enter (h : host.Settles (host.typeId type :: met) visits finding) :
    host.Settles met ((d, .type type) :: visits) finding := by
  cases h with
  | passed hpass =>
    rcases hpass with hmet | hflags
    · rcases List.mem_cons.1 hmet with heq | hmet
      · exact .met List.mem_cons_self heq.symm
      · exact .passed (.inl hmet)
    · exact .passed (.inr hflags)
  | met hvisit heq => exact .met (List.mem_cons_of_mem _ hvisit) heq
  | missing hvisit => exact .missing (List.mem_cons_of_mem _ hvisit)

/-- A survey settles all that is on its agenda. -/
theorem Surveys.settles_agenda (S : host.Surveys met agenda visits)
    (hagenda : (d, finding) ∈ agenda) : host.Settles met visits finding := by
  induction S with
  | done => cases hagenda
  | pass hpass _ ih =>
    rcases List.mem_cons.1 hagenda with heq | hagenda
    · cases heq
      exact .passed hpass
    · exact ih hagenda
  | missing _ ih =>
    rcases List.mem_cons.1 hagenda with heq | hagenda
    · cases heq
      exact .missing List.mem_cons_self
    · exact (ih hagenda).cons _
  | enter _ _ ih =>
    rcases List.mem_cons.1 hagenda with heq | hagenda
    · cases heq
      exact .met List.mem_cons_self rfl
    · exact (ih (List.mem_append_right _ hagenda)).of_enter

/-- A survey settles all that is inside what it comes to. -/
theorem Surveys.settles_inside (S : host.Surveys met agenda visits)
    (hvisit : (d, .type type) ∈ visits) (hinside : finding ∈ host.inside type) :
    host.Settles met visits finding := by
  induction S with
  | done => cases hvisit
  | pass _ _ ih => exact ih hvisit
  | missing _ ih =>
    rcases List.mem_cons.1 hvisit with heq | hvisit
    · cases heq
    · exact (ih hvisit).cons _
  | enter _ S ih =>
    rcases List.mem_cons.1 hvisit with heq | hvisit
    · cases heq
      refine Settles.of_enter (S.settles_agenda (d := d + 1) ?_)
      exact List.mem_append_left _ (List.mem_map_of_mem hinside)
    · exact (ih hvisit).of_enter

end Surveys

/-! ## Surveys of one type -/

section Root

variable {host : TypeHost τ σ} {root : τ} {visits : List (Nat × Finding τ)} {d : Nat} {type : τ}

/-- A survey of a type comes to types that it leads to only. -/
theorem Surveys.leads (S : host.Surveys [] [(0, .type root)] visits)
    (hvisit : (d, .type type) ∈ visits) : host.Leads root type := by
  induction d generalizing type with
  | zero =>
    rcases S.origin hvisit with hagenda | ⟨outer, owner, hd, _⟩
    · cases List.mem_singleton.1 hagenda
      exact .root
    · omega
  | succ d ih =>
    rcases S.origin hvisit with hagenda | ⟨outer, owner, hd, howner, hinside⟩
    · cases List.mem_singleton.1 hagenda
    · obtain rfl : outer = d := by omega
      exact (ih howner).inside hinside

/-- What is settled from the start was come to, unless it is a literal. -/
theorem Settles.exists_visit (hinj : Function.Injective host.typeId)
    (h : host.Settles [] visits (.type type))
    (hflags : ¬ (host.typeFlags type).isPerPosition = true) :
    ∃ d, (d, .type type) ∈ visits := by
  cases h with
  | passed hpass =>
    rcases hpass with hmet | hliteral
    · cases hmet
    · exact absurd hliteral hflags
  | @met d _ other hvisit heq =>
    obtain rfl := hinj heq
    exact ⟨d, hvisit⟩

/-- A survey comes to the types inside of what it comes to, literals apart. -/
theorem Surveys.exists_visit_inside (hinj : Function.Injective host.typeId)
    (S : host.Surveys [] [(0, .type root)] visits) {owner : τ}
    (howner : ∃ d, (d, .type owner) ∈ visits) (hinside : .type type ∈ host.inside owner)
    (hflags : ¬ (host.typeFlags type).isPerPosition = true) : ∃ d, (d, .type type) ∈ visits := by
  obtain ⟨d, hvisit⟩ := howner
  exact (S.settles_inside hvisit hinside).exists_visit hinj hflags

/-- A survey of a type comes to the types that it leads to, literals apart. -/
theorem Surveys.exists_type_iff (hinj : Function.Injective host.typeId)
    (S : host.Surveys [] [(0, .type root)] visits) :
    (∃ d, (d, .type type) ∈ visits) ↔
      host.Leads root type ∧ ¬ (host.typeFlags type).isPerPosition = true := by
  constructor
  · rintro ⟨d, hvisit⟩
    exact ⟨S.leads hvisit, S.not_isPerPosition hvisit⟩
  · rintro ⟨hleads, hflags⟩
    induction hleads with
    | root => exact (S.settles_agenda List.mem_cons_self).exists_visit hinj hflags
    | member _ hunion hmember ih =>
      refine S.exists_visit_inside hinj (ih (not_isPerPosition_of_isUnion hunion)) ?_ hflags
      rw [inside_of_isUnion hunion]
      exact List.mem_map_of_mem hmember
    | argument _ href hargument ih =>
      have howner := ih (not_isPerPosition_of_isObject (isObject_of_isReference href))
      refine S.exists_visit_inside hinj howner ?_ hflags
      rw [inside_of_isReference href]
      exact List.mem_append_left _ (List.mem_map_of_mem hargument)
    | property _ hplain hsymbol htype ih =>
      refine S.exists_visit_inside hinj (ih (not_isPerPosition_of_isObject hplain.1)) ?_ hflags
      rw [inside_of_isPlain hplain]
      refine List.mem_map.2 ⟨_, hsymbol, ?_⟩
      rw [propertyFinding, htype]

/-- What a survey misses is inside a type that it comes to. -/
theorem Surveys.exists_missing_iff (S : host.Surveys [] [(0, .type root)] visits)
    {what : HostDatum} {id : TypeId} :
    (∃ d, (d, .missing what id) ∈ visits) ↔
      ∃ d type, (d, .type type) ∈ visits ∧ .missing what id ∈ host.inside type := by
  constructor
  · rintro ⟨d, hvisit⟩
    rcases S.origin hvisit with hagenda | ⟨outer, type, _, htype, hinside⟩
    · cases List.mem_singleton.1 hagenda
    · exact ⟨outer, type, htype, hinside⟩
  · rintro ⟨d, type, htype, hinside⟩
    cases S.settles_inside htype hinside with
    | missing hvisit => exact ⟨_, hvisit⟩

/-- A type without a symbol that it needs has that missing inside. -/
theorem LacksSymbol.mem_inside (h : host.LacksSymbol type) :
    .missing .symbol (host.typeId type) ∈ host.inside type := by
  obtain ⟨hobject, h⟩ := h
  split_ifs at h with href
  · obtain ⟨target, htarget, htuple, hsymbol⟩ := h
    rw [inside_of_isReference href, owed, htarget]
    simp [htuple, hsymbol]
  · rw [inside_of_isObject hobject (by simpa using href), objectFindings, h]
    exact List.mem_singleton_self _

/-- If references have targets, a survey misses nothing exactly if no type that the root
leads to lacks its symbol and the properties of the plain ones have types. -/
theorem Surveys.misses_nothing_iff (hinj : Function.Injective host.typeId)
    (htarget : ∀ type, host.isReference type = true →
      ∃ target, host.referenceTarget? type = some target)
    (S : host.Surveys [] [(0, .type root)] visits) :
    (∀ d what id, (d, .missing what id) ∉ visits) ↔
      (∀ type, host.Leads root type → ¬ host.LacksSymbol type) ∧
        ∀ type, host.Leads root type → host.IsPlain type →
          ∀ symbol ∈ host.properties type, ∃ inner, host.typeOfSymbol? symbol = some inner := by
  constructor
  · intro hnone
    have hinside : ∀ type what id, host.Leads root type → host.isObject type = true →
        .missing what id ∉ host.inside type := by
      intro type what id hleads hobject hmem
      obtain ⟨d, hvisit⟩ :=
        (S.exists_type_iff hinj).2 ⟨hleads, not_isPerPosition_of_isObject hobject⟩
      obtain ⟨d', hmissing⟩ := S.exists_missing_iff.2 ⟨d, type, hvisit, hmem⟩
      exact hnone d' what id hmissing
    refine ⟨fun type hleads hlacks => hinside _ _ _ hleads hlacks.1 hlacks.mem_inside, ?_⟩
    intro type hleads hplain symbol hsymbol
    cases htype : host.typeOfSymbol? symbol with
    | some inner => exact ⟨inner, rfl⟩
    | none =>
      refine absurd ?_ (hinside type .propertyType (host.typeId type) hleads hplain.1)
      rw [inside_of_isPlain hplain]
      refine List.mem_map.2 ⟨symbol, hsymbol, ?_⟩
      rw [propertyFinding, htype]
  · rintro ⟨hsymbols, hproperties⟩ d what id hmissing
    obtain ⟨outer, type, hvisit, hinside⟩ := S.exists_missing_iff.1 ⟨d, hmissing⟩
    have hleads := S.leads hvisit
    rcases mem_inside_cases hinside with ⟨_, member, _, heq⟩ | ⟨href, hfound⟩ | ⟨hlacks, _⟩ |
      ⟨hplain, symbol, hsymbol, heq⟩
    · cases heq
    · rcases hfound with ⟨argument, _, heq⟩ | howed
      · cases heq
      · obtain ⟨target, htarget⟩ := htarget type href
        exact hsymbols type hleads (lacksSymbol_of_mem_owed href htarget howed)
    · exact hsymbols type hleads hlacks
    · obtain ⟨inner, hinner⟩ := hproperties type hleads hplain symbol hsymbol
      rw [propertyFinding, hinner] at heq
      cases heq

end Root

end TypeHost

/-! ## Programs -/

namespace Program

variable (p : Program)

/-- Only a declared type has anything inside. -/
theorem mem_ids_of_inside_ne_nil {id : TypeId} (h : p.host.inside id ≠ []) :
    id ∈ (p.types.map TypeEntry.id).toFinset := by
  cases hentry : p.type? id with
  | some entry =>
    have hmem := List.mem_of_find?_eq_some hentry
    have hid : entry.id = id := by simpa using List.find?_some hentry
    exact List.mem_toFinset.2 (List.mem_map.2 ⟨entry, hmem, hid⟩)
  | none =>
    have hflags : p.host.typeFlags id = .none := by
      simp [host, shape?, hentry]
    have hfirst : TypeFlags.none.first? = none := by decide
    refine absurd ?_ h
    simp [TypeHost.inside, TypeHost.isUnion, TypeHost.isReference, TypeHost.isObject, hflags,
      hfirst]

/-- Every agenda has a survey. -/
theorem exists_surveys (met : List TypeId) (agenda : List (Nat × Finding TypeId)) :
    ∃ visits, p.host.Surveys met agenda visits :=
  p.host.exists_surveys _ (fun _ h => p.mem_ids_of_inside_ne_nil h) met agenda

/-- Of all shapes only that of a reference has the flag. -/
private theorem shape_of_contains_reference {shape : Shape}
    (h : shape.objectFlags.contains .reference = true) :
    ∃ target arguments, shape = .reference target arguments := by
  have hnone : ObjectFlags.none.contains .reference = false := by decide
  have hothers : ∀ flags ∈ [ObjectFlags.anonymous, .interfaceType, .classType, .tuple],
      flags.contains .reference = false := by decide
  cases shape with
  | reference target arguments => exact ⟨target, arguments, rfl⟩
  | object anonymous calls properties =>
    cases anonymous <;> simp [Shape.objectFlags, hnone, hothers] at h
  | declared isInterface properties bases =>
    cases isInterface <;> simp [Shape.objectFlags, hothers] at h
  | _ => simp [Shape.objectFlags, hnone, hothers] at h

/-- A reference has a target. -/
theorem exists_referenceTarget? {id : TypeId} (h : p.host.isReference id = true) :
    ∃ target, p.host.referenceTarget? id = some target := by
  simp only [TypeHost.isReference, Bool.and_eq_true] at h
  have hflag := h.2
  cases hshape : p.shape? id with
  | none =>
    simp only [host, hshape, Option.map_none, Option.getD_none] at hflag
    cases hflag
  | some shape =>
    simp only [host, hshape, Option.map_some, Option.getD_some] at hflag
    obtain ⟨target, arguments, rfl⟩ := shape_of_contains_reference hflag
    exact ⟨target, by simp [host, hshape]⟩

end Program

end TypeDescription
