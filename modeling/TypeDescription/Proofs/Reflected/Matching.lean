import TypeDescription.Proofs.Reflected.CacheInvariant

/-!
# Graphs of the same form

Two types are `TypeContent.Alike` if they are the same but for the nodes that they
contain, which are related place by place.  Two graphs are `Store.Isomorphic` if a
relation that goes along their roots and the places inside is one to one; literal
strings and numbers are only compared by what they are.

Joining the members of a union keeps such a relation, if related members agree in
whether they are boolean and how (`normalizeUnion_related`).
-/

namespace TypeDescription

/-! ## Types of the same form -/

/-- Members that differ in their nodes only, which are related. -/
structure Member.Alike (R : NodeRef → NodeRef → Prop) (m m' : Member) : Prop where
  name_eq : m'.name = m.name
  modifiers_eq : m'.modifiers = m.modifiers
  initializer_eq : m'.initializer = m.initializer
  type : R m.type m'.type

/-- Constructors that differ in the nodes of their parameters only, which are
related. -/
structure Constructor.Alike (R : NodeRef → NodeRef → Prop) (c c' : Constructor) : Prop where
  modifiers_eq : c'.modifiers = c.modifiers
  parameters : List.Forall₂ (Member.Alike R) c.parameters c'.parameters

namespace TypeContent

/-- Types that differ in the nodes that they contain only, which are related place
by place. -/
inductive Alike (R : NodeRef → NodeRef → Prop) : TypeContent → TypeContent → Prop
  | leaf {content : TypeContent} : content.children = [] → Alike R content content
  | tuple {elements elements' : List NodeRef} : List.Forall₂ R elements elements' →
      Alike R (.tuple elements) (.tuple elements')
  | union {members members' : List NodeRef} : List.Forall₂ R members members' →
      Alike R (.union members) (.union members')
  | reference (name : Expression) {arguments arguments' : List NodeRef} :
      List.Forall₂ R arguments arguments' →
        Alike R (.reference name arguments) (.reference name arguments')
  | object (name : Option String) {properties properties' : List Member} :
      List.Forall₂ (Member.Alike R) properties properties' →
        Alike R (.object name properties) (.object name properties')
  | classType (name : String) {properties properties' : List Member}
      {constructors constructors' : List Constructor} {base base' : Option NodeRef} :
      List.Forall₂ (Member.Alike R) properties properties' →
        List.Forall₂ (Constructor.Alike R) constructors constructors' →
          Option.Rel R base base' →
            Alike R (.classType ⟨name, properties, constructors, base⟩)
              (.classType ⟨name, properties', constructors', base'⟩)

theorem Alike.kind_eq {R : NodeRef → NodeRef → Prop} {content content' : TypeContent}
    (h : content.Alike R content') : content'.kind = content.kind := by
  cases h <;> rfl

private theorem forall₂_types {R : NodeRef → NodeRef → Prop} {members members' : List Member}
    (h : List.Forall₂ (Member.Alike R) members members') :
    List.Forall₂ R (members.map Member.type) (members'.map Member.type) :=
  List.rel_map (fun _ _ hm => hm.type) h

/-- The places in types that are alike go along. -/
theorem Alike.children {R : NodeRef → NodeRef → Prop} {content content' : TypeContent}
    (h : content.Alike R content') : List.Forall₂ R content.children content'.children := by
  cases h with
  | leaf h =>
    rw [h]
    exact .nil
  | tuple h => exact h
  | union h => exact h
  | reference _ h => exact h
  | object _ h => exact forall₂_types h
  | classType _ hproperties hconstructors hbase =>
    refine List.rel_append (List.rel_append (forall₂_types hproperties) ?_) ?_
    · exact List.rel_flatMap hconstructors fun _ _ hc => forall₂_types hc.parameters
    · cases hbase with
      | none => exact .nil
      | some hn => exact .cons hn .nil

end TypeContent

namespace Store

/-! ## Graphs of the same form -/

/-- A relation between the nodes of two graphs.  Related nodes have the same
identity, are complete and are alike along the relation.  It is one to one, except
that a literal string or number may be one node here and several there. -/
structure Isomorphism (s s' : Store) (R : NodeRef → NodeRef → Prop) : Prop where
  node : ∀ n n', R n n' → ∃ id content content', s.node? n = some ⟨id, some content⟩ ∧
    s'.node? n' = some ⟨id, some content'⟩ ∧ content.Alike R content'
  same : ∀ n n' m m' kind, R n n' → R m m' → s.kind? n = some kind → kind.isLiteral = false →
    (n = m ↔ n' = m')

/-- The graphs of two nodes have the same form. -/
def Isomorphic (s : Store) (root : NodeRef) (s' : Store) (root' : NodeRef) : Prop :=
  ∃ R, s.Isomorphism s' R ∧ R root root'

/-! ## Boolean members -/

/-- The kind of a node, if it is one of the boolean family. -/
def booleanKind? (s : Store) (r : NodeRef) : Option TypeKind :=
  (s.kind? r).filter TypeKind.isBooleanLike

theorem isBooleanLike_eq (s : Store) (r : NodeRef) :
    s.isBooleanLike r = (s.booleanKind? r).isSome := by
  unfold isBooleanLike booleanKind?
  cases s.kind? r with
  | none => rfl
  | some kind => cases h : kind.isBooleanLike <;> simp [h]

theorem kind?_beq_eq (s : Store) (r : NodeRef) {kind : TypeKind} (h : kind.isBooleanLike = true) :
    (s.kind? r == some kind) = (s.booleanKind? r == some kind) := by
  unfold booleanKind?
  cases s.kind? r with
  | none => rfl
  | some other =>
    by_cases heq : other = kind
    · subst heq
      simp [h]
    · cases hother : other.isBooleanLike <;> simp [heq]

section Related

variable {s s' : Store} {R : NodeRef → NodeRef → Prop} {ns ns' : List NodeRef}

/-- Related nodes that agree in whether they are boolean. -/
abbrev AgreeAlong (s s' : Store) (R : NodeRef → NodeRef → Prop) (n n' : NodeRef) : Prop :=
  R n n' ∧ s'.booleanKind? n' = s.booleanKind? n

private theorem hasKind_related (h : List.Forall₂ (AgreeAlong s s' R) ns ns') {kind : TypeKind}
    (hkind : kind.isBooleanLike = true) : s'.hasKind kind ns' = s.hasKind kind ns := by
  unfold hasKind
  induction h with
  | nil => rfl
  | cons hn _ ih =>
    rw [List.any_cons, List.any_cons, ih, kind?_beq_eq _ _ hkind, kind?_beq_eq _ _ hkind, hn.2]

private theorem find?_related (h : List.Forall₂ (AgreeAlong s s' R) ns ns') :
    Option.Rel R (ns.find? fun r => s.kind? r == some .boolean)
      (ns'.find? fun r => s'.kind? r == some .boolean) := by
  induction h with
  | nil => exact .none
  | @cons n n' _ _ hn _ ih =>
    have heq : (s'.kind? n' == some .boolean) = (s.kind? n == some .boolean) := by
      rw [kind?_beq_eq _ _ rfl, kind?_beq_eq _ _ rfl, hn.2]
    rw [List.find?_cons, List.find?_cons, heq]
    cases s.kind? n == some .boolean with
    | true => exact .some hn.1
    | false => exact ih

/-- Joining related members gives related members, and it adds a `boolean` last to
both or to none. -/
theorem normalizeUnion_related (h : List.Forall₂ (AgreeAlong s s' R) ns ns') :
    (∃ joined joined', List.Forall₂ R joined joined' ∧ s.normalizeUnion ns = (joined, s) ∧
        s'.normalizeUnion ns' = (joined', s')) ∨
      ∃ others others', List.Forall₂ R others others' ∧
        s.normalizeUnion ns =
          (others ++ [s.size], (s.add ⟨.synthetic, some .boolean⟩).2) ∧
        s'.normalizeUnion ns' =
          (others' ++ [s'.size], (s'.add ⟨.synthetic, some .boolean⟩).2) := by
  have hlike : ∀ n n', AgreeAlong s s' R n n' → s'.isBooleanLike n' = s.isBooleanLike n := by
    intro n n' hn
    rw [isBooleanLike_eq, isBooleanLike_eq, hn.2]
  have hbooleans : List.Forall₂ (AgreeAlong s s' R) (ns.filter s.isBooleanLike)
      (ns'.filter s'.isBooleanLike) :=
    List.rel_filter (fun n n' hn => by simp [hlike n n' hn]) h
  have hothers : List.Forall₂ R (ns.filter fun r => !s.isBooleanLike r)
      (ns'.filter fun r => !s'.isBooleanLike r) :=
    (List.rel_filter (fun n n' hn => by simp [hlike n n' hn]) h).imp fun _ _ hn => hn.1
  have hcovers : s'.coversBoolean (ns'.filter s'.isBooleanLike) =
      s.coversBoolean (ns.filter s.isBooleanLike) := by
    unfold coversBoolean
    rw [hasKind_related hbooleans rfl, hasKind_related hbooleans rfl, hasKind_related hbooleans rfl]
  have hfind := find?_related hbooleans
  unfold normalizeUnion
  dsimp only
  rw [hcovers]
  split
  · generalize (ns.filter s.isBooleanLike).find? _ = found at hfind ⊢
    generalize (ns'.filter s'.isBooleanLike).find? _ = found' at hfind ⊢
    cases hfind with
    | none => exact .inr ⟨_, _, hothers, rfl, rfl⟩
    | some hboolean =>
      exact .inl ⟨_, _, List.rel_append hothers (.cons hboolean .nil), rfl, rfl⟩
  · exact .inl ⟨_, _, List.rel_append hothers (hbooleans.imp fun _ _ hn => hn.1), rfl, rfl⟩

end Related

end Store

end TypeDescription
