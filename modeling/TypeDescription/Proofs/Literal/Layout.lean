import Mathlib.Algebra.GroupWithZero.Nat
import Mathlib.Algebra.Order.BigOperators.Group.List
import Mathlib.Algebra.Order.Group.Nat
import Mathlib.Data.Finset.Card
import Mathlib.Data.Finset.Range
import TypeDescription.Graph.Encode
import TypeDescription.Reflected.Basic

/-!
# The layout of literals

What a literal says of a type stands in the fields of an object, some of which are
lists and tables with types in them.  `TypeContent.layout` names the fields of each
kind in their order, and `Layout` what stands in them.

`Store.Walks` goes through a literal without making one.  It is a depth-first walk of an
agenda of spots, each a place in the literal and what stands there.  A list or a table is
always gone into.  A type is gone into only where its identity and kind are met first,
and literal strings and numbers never are.  Every store has a walk (`exists_walks`): a type
that is gone into is no more to be met, and else the spots on the agenda become smaller.
-/

namespace TypeDescription

/-! ## What stands in a literal -/

/-- What stands at a place of a literal. -/
inductive Layout where
  | scalar
  | type (node : NodeRef)
  | types (nodes : List NodeRef)
  | properties (members : List Member)
  | constructors (list : List Constructor)
  | constructor (c : Constructor)
  | parameters (members : List Member)
  | parameter (p : Member)
deriving DecidableEq

namespace Layout

/-- The places in a list. -/
def items {α : Type} (item : α → Layout) (l : List α) : List (Step × Layout) :=
  l.zipIdx.map fun (a, i) => (.ofIndex i, item a)

/-- The places in a list or a table, in their order. -/
def parts : Layout → List (Step × Layout)
  | scalar => []
  | type _ => []
  | types nodes => items type nodes
  | properties members => members.map fun member => (.key member.name, type member.type)
  | constructors list => items constructor list
  | constructor c => [(.key "modifiers", scalar), (.key "parameters", parameters c.parameters)]
  | parameters members => items parameter members
  | parameter p => [(.key "name", scalar), (.key "modifiers", scalar), (.key "type", type p.type)]

/-- The types inside. -/
def nodes : Layout → List NodeRef
  | scalar => []
  | type n => [n]
  | types nodes => nodes
  | properties members => members.map Member.type
  | constructors list => list.flatMap fun c => c.parameters.map Member.type
  | constructor c => c.parameters.map Member.type
  | parameters members => members.map Member.type
  | parameter p => [p.type]

theorem map_snd_items {α : Type} (item : α → Layout) (l : List α) :
    (items item l).map Prod.snd = l.map item := by
  have h : (l.zipIdx.map Prod.fst).map item = l.map item := by rw [List.zipIdx_map_fst]
  rw [items, List.map_map, ← h, List.map_map]
  rfl

theorem flatMap_nodes_items {α : Type} (item : α → Layout) (l : List α) :
    ((items item l).flatMap fun part => part.2.nodes) = l.flatMap fun a => (item a).nodes := by
  have h : ((items item l).map Prod.snd).flatMap nodes = (l.map item).flatMap nodes := by
    rw [map_snd_items]
  rwa [List.flatMap_map, List.flatMap_map] at h

/-- The types in a list or a table are those in its places. -/
theorem nodes_eq_flatMap (layout : Layout) (htype : ∀ n, layout ≠ type n) :
    layout.nodes = layout.parts.flatMap fun part => part.2.nodes := by
  cases layout with
  | type n => exact absurd rfl (htype n)
  | types list => exact (flatMap_nodes_items type list ▸ List.flatMap_singleton' list).symm
  | constructors list => exact (flatMap_nodes_items constructor list).symm
  | parameters list => exact List.map_eq_flatMap.trans (flatMap_nodes_items parameter list).symm
  | properties list =>
    rw [parts, List.flatMap_map]
    exact List.map_eq_flatMap
  | constructor c => exact (List.append_nil _).symm
  | _ => rfl

end Layout

namespace TypeContent

/-- The fields that a type has in a literal by its kind, in their order. -/
def fields : TypeContent → List (String × Layout)
  | object _ members => [("name", .scalar), ("properties", .properties members)]
  | classType content =>
      [("name", .scalar), ("properties", .properties content.properties),
        ("constructors", .constructors content.constructors)] ++
      content.base.toList.map fun base => ("extends", .type base)
  | tuple elements => [("elementTypes", .types elements)]
  | union members => [("types", .types members)]
  | stringLiteral _ => [("value", .scalar)]
  | numberLiteral _ => [("value", .scalar)]
  | reference _ arguments => [("type", .scalar), ("arguments", .types arguments)]
  | _ => []

/-- All fields that a type has in a literal, in their order. -/
def layout (content : TypeContent) : List (String × Layout) :=
  [("kind", .scalar), ("modifiers", .scalar), ("initializer", .scalar)] ++ content.fields

/-- The types in the fields are those that the type contains. -/
theorem nodes_layout (content : TypeContent) :
    (content.layout.flatMap fun field => field.2.nodes) = content.children := by
  cases content with
  | classType content =>
    cases hbase : content.base <;> simp [layout, fields, children, Layout.nodes, hbase]
  | _ => simp [layout, fields, children, Layout.nodes]

end TypeContent

/-! ## Walks -/

/-- A place in a literal, by the steps back to the root, and what stands there. -/
abbrev Spot : Type :=
  Trail × Layout

namespace Store

/-- The identity and the kind of a type that is written once.  A literal string or number
is written wherever it stands. -/
def shared? (store : Store) (n : NodeRef) : Option (TypeId × TypeKind) :=
  (store.node? n).bind fun node => node.content.bind fun content =>
    if content.kind.isLiteral then none else some (node.id, content.kind)

theorem shared?_of_node? {store : Store} {n : NodeRef} {id : TypeId} {content : TypeContent}
    (h : store.node? n = some ⟨id, some content⟩) :
    store.shared? n = if content.kind.isLiteral then none else some (id, content.kind) := by
  rw [shared?, h, Option.bind_some, Option.bind_some]

theorem shared?_of_isLiteral {store : Store} {n : NodeRef} {id : TypeId} {content : TypeContent}
    (h : store.node? n = some ⟨id, some content⟩) (hliteral : content.kind.isLiteral = true) :
    store.shared? n = none := by
  rw [shared?_of_node? h, if_pos hliteral]

theorem shared?_eq_some_iff {store : Store} {n : NodeRef} {key : TypeId × TypeKind} :
    store.shared? n = some key ↔ ∃ content, store.node? n = some ⟨key.1, some content⟩ ∧
      content.kind = key.2 ∧ key.2.isLiteral = false := by
  constructor
  · intro h
    obtain ⟨⟨id, _⟩, hnode, hcontent⟩ := Option.bind_eq_some_iff.1 h
    obtain ⟨content, rfl, hkey⟩ := Option.bind_eq_some_iff.1 hcontent
    split at hkey
    · cases hkey
    · next hliteral =>
      obtain rfl := Option.some.inj hkey
      exact ⟨content, hnode, rfl, eq_false_of_ne_true hliteral⟩
  · rintro ⟨content, hnode, hkind, hliteral⟩
    rw [shared?_of_node? hnode, hkind, hliteral]
    rfl

/-- The identity and the kind of a type that is written once, if one stands here. -/
def key? (store : Store) : Layout → Option (TypeId × TypeKind)
  | .type n => store.shared? n
  | _ => none

/-- The places inside, in their order. -/
def parts (store : Store) : Layout → List (Step × Layout)
  | .type n => ((store.content? n).elim [] TypeContent.layout).map fun (name, part) =>
      (.key name, part)
  | layout => layout.parts

theorem parts_of_content? {store : Store} {n : NodeRef} {content : TypeContent}
    (h : store.content? n = some content) :
    store.parts (.type n) = content.layout.map fun field => (.key field.1, field.2) := by
  simp only [parts, h, Option.elim_some]

theorem parts_of_ne_type {store : Store} {layout : Layout} (h : ∀ n, layout ≠ .type n) :
    store.parts layout = layout.parts := by
  cases layout with
  | type n => exact absurd rfl (h n)
  | _ => rfl

theorem key?_of_ne_type {store : Store} {layout : Layout} (h : ∀ n, layout ≠ .type n) :
    store.key? layout = none := by
  cases layout with
  | type n => exact absurd rfl (h n)
  | _ => rfl

/-- What stands inside, each part at its own place. -/
def inside (store : Store) (spot : Spot) : List Spot :=
  (store.parts spot.2).map fun part => (part.1 :: spot.1, part.2)

/-- Whether a walk that has met some types goes inside. -/
def Opens (store : Store) (met : List (TypeId × TypeKind)) : Layout → Prop
  | .scalar => False
  | .type n => ∃ key, store.shared? n = some key ∧ key ∉ met
  | _ => True

theorem opens_of_ne {store : Store} {met : List (TypeId × TypeKind)} {layout : Layout}
    (hscalar : layout ≠ .scalar) (htype : ∀ n, layout ≠ .type n) : store.Opens met layout := by
  cases layout with
  | scalar => exact absurd rfl hscalar
  | type n => exact absurd rfl (htype n)
  | _ => trivial

theorem not_opens_of_shared? {store : Store} {met : List (TypeId × TypeKind)} {n : NodeRef}
    (h : store.shared? n = none) : ¬ store.Opens met (.type n) := by
  rintro ⟨key, hkey, _⟩
  rw [h] at hkey
  cases hkey

/-- The types met inside a type are those met before and the type itself. -/
theorem marks_of_shared? {store : Store} {n : NodeRef} {key : TypeId × TypeKind}
    (h : store.shared? n = some key) (met : List (TypeId × TypeKind)) :
    (store.key? (.type n)).toList ++ met = key :: met := by
  rw [key?, h]
  rfl

/-- The depth-first walk of an agenda: the spots that it comes to, in order, when the types
`met` were gone into before. -/
inductive Walks (store : Store) : List (TypeId × TypeKind) → List Spot → List Spot → Prop
  | done {met : List (TypeId × TypeKind)} : Walks store met [] []
  | pass {met : List (TypeId × TypeKind)} {spot : Spot} {rest spots : List Spot} :
      ¬ store.Opens met spot.2 → Walks store met rest spots →
        Walks store met (spot :: rest) (spot :: spots)
  | enter {met : List (TypeId × TypeKind)} {spot : Spot} {rest spots : List Spot} :
      store.Opens met spot.2 →
        Walks store ((store.key? spot.2).toList ++ met) (store.inside spot ++ rest) spots →
        Walks store met (spot :: rest) (spot :: spots)

/-- Where a type stands first. -/
def first? (store : Store) (spots : List Spot) (key : TypeId × TypeKind) : Option Trail :=
  (spots.find? fun spot => store.key? spot.2 == some key).map Prod.fst

end Store

/-! ## Every store has a walk -/

namespace Layout

/-- More than the weights of what stands inside a list or a table together. -/
def weight : Layout → Nat
  | scalar => 1
  | type _ => 1
  | types nodes => nodes.length + 1
  | properties members => members.length + 1
  | constructors list => (list.map fun c => 4 * c.parameters.length + 3).sum + 1
  | constructor c => 4 * c.parameters.length + 3
  | parameters members => 4 * members.length + 1
  | parameter _ => 4

theorem weight_pos (layout : Layout) : 0 < layout.weight := by
  cases layout <;> simp [weight]

/-- Going inside a list or a table leaves less to walk. -/
theorem sum_weight_parts_lt (layout : Layout) :
    ((layout.parts.map Prod.snd).map weight).sum < layout.weight := by
  cases layout with
  | constructor c =>
    simp only [parts, weight, List.map_cons, List.map_nil, List.sum_cons, List.sum_nil]
    omega
  | constructors list =>
    simp only [parts, map_snd_items, List.map_map, Function.comp_def, weight]
    omega
  | _ => simp [parts, map_snd_items, weight, Function.comp_def, Nat.mul_comm]

theorem weight_lt_of_mem_parts {layout : Layout} {part : Step × Layout}
    (hpart : part ∈ layout.parts) : part.2.weight < layout.weight := by
  refine Nat.lt_of_le_of_lt (List.le_sum_of_mem ?_) layout.sum_weight_parts_lt
  exact List.mem_map_of_mem (List.mem_map_of_mem hpart)

end Layout

namespace Store

/-- The nodes whose types a walk can still go into. -/
def unmet (store : Store) (met : List (TypeId × TypeKind)) : Finset NodeRef :=
  (Finset.range store.size).filter fun n => (store.shared? n).any (· ∉ met)

theorem mem_unmet {store : Store} {met : List (TypeId × TypeKind)} {n : NodeRef} :
    n ∈ store.unmet met ↔ ∃ key, store.shared? n = some key ∧ key ∉ met := by
  simp only [unmet, Finset.mem_filter, Finset.mem_range, Option.any_eq_true, decide_eq_true_eq]
  refine and_iff_right_of_imp fun ⟨key, hkey, _⟩ => ?_
  obtain ⟨node, hnode, _⟩ := Option.bind_eq_some_iff.1 hkey
  exact (Array.getElem?_eq_some_iff.1 hnode).1

theorem card_unmet_lt {store : Store} {met : List (TypeId × TypeKind)} {n : NodeRef}
    {key : TypeId × TypeKind} (hkey : store.shared? n = some key) (hmet : key ∉ met) :
    (store.unmet (key :: met)).card < (store.unmet met).card := by
  refine Finset.card_lt_card ((Finset.ssubset_iff_of_subset fun m hm => ?_).2 ⟨n, ?_, fun hn => ?_⟩)
  · obtain ⟨key', hkey', hmem⟩ := mem_unmet.1 hm
    exact mem_unmet.2 ⟨key', hkey', fun h => hmem (List.mem_cons_of_mem _ h)⟩
  · exact mem_unmet.2 ⟨key, hkey, hmet⟩
  · obtain ⟨key', hkey', hmem⟩ := mem_unmet.1 hn
    obtain rfl := Option.some.inj (hkey.symm.trans hkey')
    exact hmem List.mem_cons_self

theorem map_snd_inside (store : Store) (spot : Spot) :
    (store.inside spot).map Prod.snd = (store.parts spot.2).map Prod.snd := by
  rw [inside, List.map_map]
  rfl

/-- Every agenda has a walk. -/
theorem exists_walks (store : Store) (met : List (TypeId × TypeKind)) (agenda : List Spot) :
    ∃ spots, store.Walks met agenda spots := by
  induction hcard : (store.unmet met).card using Nat.strong_induction_on
    generalizing met agenda with
  | _ card ihcard =>
    induction hweight : ((agenda.map Prod.snd).map Layout.weight).sum using Nat.strong_induction_on
        generalizing agenda with
    | _ weight ih =>
      cases agenda with
      | nil => exact ⟨[], .done⟩
      | cons spot rest =>
        rw [List.map_cons, List.map_cons, List.sum_cons] at hweight
        by_cases hopens : store.Opens met spot.2
        · cases hspot : spot.2 with
          | type n =>
            obtain ⟨key, hkey, hmet⟩ : ∃ key, store.shared? n = some key ∧ key ∉ met := by
              rw [hspot] at hopens
              exact hopens
            have hmarks : (store.key? spot.2).toList ++ met = key :: met := by
              rw [hspot, marks_of_shared? hkey]
            obtain ⟨spots, W⟩ := ihcard _ (hcard ▸ card_unmet_lt hkey hmet) (key :: met)
              (store.inside spot ++ rest) rfl
            exact ⟨_, .enter hopens (hmarks ▸ W)⟩
          | _ =>
            have hparts : store.parts spot.2 = spot.2.parts := by rw [hspot]; rfl
            have hmarks : (store.key? spot.2).toList ++ met = met := by rw [hspot]; rfl
            have hlt := spot.2.sum_weight_parts_lt
            obtain ⟨spots, W⟩ := ih _ (by
              rw [List.map_append, List.map_append, List.sum_append, map_snd_inside, hparts]
              omega) (store.inside spot ++ rest) rfl
            exact ⟨_, .enter hopens (hmarks.symm ▸ W)⟩
        · have hpos := spot.2.weight_pos
          obtain ⟨spots, W⟩ := ih _ (by omega) rest rfl
          exact ⟨_, .pass hopens W⟩

/-! ## What a walk comes to -/

section Walks

variable {store : Store} {met : List (TypeId × TypeKind)} {agenda spots : List Spot} {spot : Spot}
  {key : TypeId × TypeKind} {first : Trail}

theorem first?_cons_of_eq (h : store.key? spot.2 = some key) :
    store.first? (spot :: spots) key = some spot.1 := by
  simp [first?, h]

theorem first?_cons_of_ne (h : store.key? spot.2 ≠ some key) :
    store.first? (spot :: spots) key = store.first? spots key := by
  simp [first?, h]

/-- A type that a walk comes to stands first somewhere. -/
theorem exists_first? {n : NodeRef} {trail : Trail} (h : (trail, .type n) ∈ spots)
    (hkey : store.shared? n = some key) : ∃ first, store.first? spots key = some first := by
  have hsome : (spots.find? fun spot => store.key? spot.2 == some key).isSome = true := by
    rw [List.find?_isSome]
    exact ⟨_, h, by simp [key?, hkey]⟩
  obtain ⟨spot, hspot⟩ := Option.isSome_iff_exists.1 hsome
  exact ⟨spot.1, by rw [first?, hspot]; rfl⟩

theorem Walks.pass_inv {rest : List Spot} (W : store.Walks met (spot :: rest) spots)
    (hopens : ¬ store.Opens met spot.2) :
    ∃ later, spots = spot :: later ∧ store.Walks met rest later := by
  cases W with
  | pass _ W => exact ⟨_, rfl, W⟩
  | enter h _ => exact absurd h hopens

theorem Walks.enter_inv {rest : List Spot} (W : store.Walks met (spot :: rest) spots)
    (hopens : store.Opens met spot.2) :
    ∃ later, spots = spot :: later ∧
      store.Walks ((store.key? spot.2).toList ++ met) (store.inside spot ++ rest) later := by
  cases W with
  | pass h _ => exact absurd hopens h
  | enter _ W => exact ⟨_, rfl, W⟩

/-- A walk comes to all of its agenda. -/
theorem Walks.subset (W : store.Walks met agenda spots) : agenda ⊆ spots := by
  induction W with
  | done => exact List.Subset.refl _
  | pass _ _ ih => exact List.cons_subset_cons _ ih
  | enter _ _ ih =>
    exact List.cons_subset_cons _ fun spot hspot => ih (List.mem_append_right _ hspot)

/-- A walk goes inside every list and table. -/
theorem Walks.inside_subset (W : store.Walks met agenda spots) (hspot : spot ∈ spots)
    (hscalar : spot.2 ≠ .scalar) (htype : ∀ n, spot.2 ≠ .type n) : store.inside spot ⊆ spots := by
  induction W with
  | done => cases hspot
  | pass hopens _ ih =>
    rcases List.mem_cons.1 hspot with rfl | hspot
    · exact absurd (opens_of_ne hscalar htype) hopens
    · exact fun part hpart => List.mem_cons_of_mem _ (ih hspot hpart)
  | enter _ W ih =>
    rcases List.mem_cons.1 hspot with rfl | hspot
    · exact fun part hpart => List.mem_cons_of_mem _ (W.subset (List.mem_append_left _ hpart))
    · exact fun part hpart => List.mem_cons_of_mem _ (ih hspot hpart)

/-- A walk goes inside a type where the type stands first. -/
theorem Walks.inside_first (W : store.Walks met agenda spots) (hkey : key ∉ met)
    (hfirst : store.first? spots key = some first) :
    ∃ n, (first, .type n) ∈ spots ∧ store.shared? n = some key ∧
      store.inside (first, .type n) ⊆ spots := by
  induction W with
  | done => cases hfirst
  | @pass met spot rest spots hopens _ ih =>
    have hne : store.key? spot.2 ≠ some key := by
      intro heq
      cases hlayout : spot.2 with
      | type n =>
        rw [hlayout] at heq hopens
        exact hopens ⟨key, heq, hkey⟩
      | _ =>
        rw [hlayout] at heq
        cases heq
    rw [first?_cons_of_ne hne] at hfirst
    obtain ⟨n, hmem, hn, hinside⟩ := ih hkey hfirst
    exact ⟨n, List.mem_cons_of_mem _ hmem, hn, fun part hpart =>
      List.mem_cons_of_mem _ (hinside hpart)⟩
  | @enter met spot rest spots _ W ih =>
    by_cases heq : store.key? spot.2 = some key
    · rw [first?_cons_of_eq heq] at hfirst
      obtain rfl := Option.some.inj hfirst
      cases hlayout : spot.2 with
      | type n =>
        rw [hlayout] at heq
        have hspot : (spot.1, Layout.type n) = spot := by rw [← hlayout]
        refine ⟨n, hspot ▸ List.mem_cons_self, heq, fun part hpart => ?_⟩
        rw [hspot] at hpart
        exact List.mem_cons_of_mem _ (W.subset (List.mem_append_left _ hpart))
      | _ =>
        rw [hlayout] at heq
        cases heq
    · rw [first?_cons_of_ne heq] at hfirst
      have hkey' : key ∉ (store.key? spot.2).toList ++ met := by
        rw [List.mem_append, not_or, Option.mem_toList]
        exact ⟨heq, hkey⟩
      obtain ⟨n, hmem, hn, hinside⟩ := ih hkey' hfirst
      exact ⟨n, List.mem_cons_of_mem _ hmem, hn, fun part hpart =>
        List.mem_cons_of_mem _ (hinside hpart)⟩

/-- A walk comes to the types in what it comes to. -/
theorem Walks.exists_type (W : store.Walks met agenda spots) (hspot : spot ∈ spots) {n : NodeRef}
    (hn : n ∈ spot.2.nodes) : ∃ trail, (trail, .type n) ∈ spots := by
  induction hweight : spot.2.weight using Nat.strong_induction_on generalizing spot with
  | _ weight ih =>
    by_cases htype : ∃ m, spot.2 = .type m
    · obtain ⟨m, hm⟩ := htype
      rw [hm] at hn
      obtain rfl := List.mem_singleton.1 hn
      exact ⟨spot.1, hm ▸ hspot⟩
    · have htype : ∀ m, spot.2 ≠ .type m := not_exists.1 htype
      have hscalar : spot.2 ≠ .scalar := fun h => by
        rw [h] at hn
        cases hn
      rw [spot.2.nodes_eq_flatMap htype] at hn
      obtain ⟨part, hpart, hn⟩ := List.mem_flatMap.1 hn
      have hinside : (part.1 :: spot.1, part.2) ∈ store.inside spot := by
        rw [inside, parts_of_ne_type htype]
        exact List.mem_map_of_mem (f := fun part => (part.1 :: spot.1, part.2)) hpart
      exact ih _ (hweight ▸ Layout.weight_lt_of_mem_parts hpart)
        (W.inside_subset hspot hscalar htype hinside) hn rfl

end Walks

end Store

end TypeDescription
