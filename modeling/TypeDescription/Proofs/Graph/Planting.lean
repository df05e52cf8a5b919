import TypeDescription.Proofs.Graph.Isomorphism

/-!
# Planted documents

To plant a document is to allocate its containers, children before parents.
`rooted_plant` says that the result is a tree: a walk comes to each new
container on one way only.  A leaf may lead to an old container, and a `Sealed`
set of old containers keeps such a walk away from the new ones.

`Unfolds` reads a document off a graph; `unfolds_plant` says that the document
read off what was planted is the one that was planted.
-/

namespace TypeDescription

variable {X : Type}

/-- All leaves of a document have a property, and no object has a name twice. -/
inductive Document.Tidy {α : Type} (P : α → Prop) : Document α → Prop
  | leaf {value : α} : P value → Tidy P (.leaf value)
  | array {items : List (Document α)} : (∀ item ∈ items, Tidy P item) → Tidy P (.array items)
  | object {fields : List (String × Document α)} : (fields.map Prod.fst).Nodup →
      (∀ item ∈ fields.map Prod.snd, Tidy P item) → Tidy P (.object fields)

theorem Document.Tidy.imp {α : Type} {P Q : α → Prop} {d : Document α} (h : d.Tidy P)
    (himp : ∀ value, P value → Q value) : d.Tidy Q := by
  induction h with
  | leaf hvalue => exact .leaf (himp _ hvalue)
  | array _ ih => exact .array ih
  | object hnames _ ih => exact .object hnames ih

/-- What holds of leaves, and of a container of which it holds inside, holds of every
document. -/
@[elab_as_elim]
theorem Document.induct {α : Type} {motive : Document α → Prop}
    (leaf : ∀ value, motive (.leaf value))
    (array : ∀ items, (∀ item ∈ items, motive item) → motive (.array items))
    (object : ∀ fields, (∀ item ∈ fields.map Prod.snd, motive item) → motive (.object fields)) :
    ∀ d, motive d
  | .leaf value => leaf value
  | .array items => array items fun item _ => induct leaf array object item
  | .object fields => object fields fun item _ => induct leaf array object item
termination_by d => sizeOf d
decreasing_by
  · have := List.sizeOf_lt_of_mem ‹item ∈ items›
    simp only [Document.array.sizeOf_spec]
    omega
  · obtain ⟨field, hfield, rfl⟩ := List.mem_map.1 ‹item ∈ fields.map Prod.snd›
    have := List.sizeOf_lt_of_mem hfield
    obtain ⟨key, value⟩ := field
    simp only [Document.object.sizeOf_spec, Prod.mk.sizeOf_spec] at *
    omega

namespace Heap

/-! ## Sealed sets -/

/-- What lies in a container of the smaller heap lies there in the larger one. -/
theorem Within.slots {k k' : Heap X} (hk : k.Within k') {r : Ref} (hr : r < k.size) :
    k'.slots r = k.slots r := by
  simp only [Heap.slots, hk.cell?_eq r hr]

/-- A set of containers that no value inside leads out of. -/
def Sealed (k : Heap X) (P : Ref → Prop) : Prop :=
  ∀ r, P r → ∀ s, .node s ∈ k.slots r → P s

/-- A walk that starts in a sealed set ends in it. -/
theorem Sealed.of_follow {k : Heap X} {P : Ref → Prop} (hP : k.Sealed P) {v : Value X}
    (hv : ∀ r, v = .node r → P r) {path : List Nat} {q : Ref}
    (h : k.follow v path = some (.node q)) : P q := by
  have hreach := reaches_of_follow h
  clear h
  induction hreach with
  | root heq => exact hv _ heq
  | @step r s _ hmem ih => exact hP r ih s (values_view k r ▸ hmem)

/-- A walk into a container goes on from the value at a position. -/
theorem follow_node_cons (k : Heap X) (r : Ref) (i : Nat) (path : List Nat) :
    k.follow (.node r) (i :: path) = (k.slots r)[i]?.bind fun v => k.follow v path := by
  rw [follow, values_view]

/-! ## Planted trees -/

section Planting

variable {k : Heap X} {base low high : Nat}

/-- A value leads to old containers and to new ones of one part of a heap, and to
each of the new ones on one way only. -/
structure Rooted (k : Heap X) (base low high : Nat) (v : Value X) : Prop where
  span : ∀ {path : List Nat} {q : Nat}, k.follow v path = some (.node q) →
    q < base ∨ low ≤ q ∧ q < high
  once : ∀ {a b : List Nat} {q : Nat}, base ≤ q → k.follow v a = some (.node q) →
    k.follow v b = some (.node q) → a = b

/-- Values lead to old containers and to new ones of one part of a heap, and to
each of the new ones on one way from one of them only. -/
structure RootedAll (k : Heap X) (base low high : Nat) (vs : List (Value X)) : Prop where
  span : ∀ {i : Nat} {v : Value X} {path : List Nat} {q : Nat}, vs[i]? = some v →
    k.follow v path = some (.node q) → q < base ∨ low ≤ q ∧ q < high
  once : ∀ {i j : Nat} {v w : Value X} {a b : List Nat} {q : Nat}, base ≤ q →
    vs[i]? = some v → vs[j]? = some w →
    k.follow v a = some (.node q) → k.follow w b = some (.node q) → i = j ∧ a = b

theorem RootedAll.nil : RootedAll k base low high [] where
  span hi := by simp at hi
  once _ hi := by simp at hi

/-- Values that lead to two parts of a heap lead to different new containers. -/
theorem RootedAll.cons {mid : Nat} {v : Value X} {vs : List (Value X)} (hlow : low ≤ mid)
    (hhigh : mid ≤ high) (hv : k.Rooted base low mid v)
    (hvs : k.RootedAll base mid high vs) : k.RootedAll base low high (v :: vs) where
  span {i w path q} hi hq := by
    cases i with
    | zero =>
      obtain rfl := Option.some.inj hi
      have := hv.span hq
      omega
    | succ i =>
      have := hvs.span hi hq
      omega
  once {i j w w' a b q} hq hi hj ha hb := by
    cases i with
    | zero =>
      obtain rfl := Option.some.inj hi
      cases j with
      | zero =>
        obtain rfl := Option.some.inj hj
        exact ⟨rfl, hv.once hq ha hb⟩
      | succ j =>
        have := hv.span ha
        have := hvs.span hj hb
        omega
    | succ i =>
      cases j with
      | zero =>
        obtain rfl := Option.some.inj hj
        have := hv.span hb
        have := hvs.span hi ha
        omega
      | succ j =>
        obtain ⟨rfl, hab⟩ := hvs.once hq hi hj ha hb
        exact ⟨rfl, hab⟩

/-- A new container leads where the values in it lead, and to itself. -/
theorem RootedAll.node {q : Nat} {vs : List (Value X)} (hlow : low ≤ q)
    (hslots : k.slots q = vs) (hvs : k.RootedAll base low q vs) :
    k.Rooted base low (q + 1) (.node q) where
  span {path s} hs := by
    cases path with
    | nil =>
      obtain rfl := Value.node.inj (Option.some.inj hs)
      exact .inr ⟨hlow, Nat.lt_succ_self _⟩
    | cons i path =>
      rw [follow_node_cons, hslots, Option.bind_eq_some_iff] at hs
      obtain ⟨v, hi, hs⟩ := hs
      have := hvs.span hi hs
      omega
  once {a b s} hs ha hb := by
    have hinner : ∀ {i path}, k.follow (.node q) (i :: path) = some (.node s) →
        ∃ v, vs[i]? = some v ∧ k.follow v path = some (.node s) := by
      intro i path hs
      rwa [follow_node_cons, hslots, Option.bind_eq_some_iff] at hs
    cases a with
    | nil =>
      obtain rfl := Value.node.inj (Option.some.inj ha)
      cases b with
      | nil => rfl
      | cons j b =>
        obtain ⟨w, hj, hb⟩ := hinner hb
        have := hvs.span hj hb
        omega
    | cons i a =>
      obtain ⟨v, hi, ha⟩ := hinner ha
      cases b with
      | nil =>
        obtain rfl := Value.node.inj (Option.some.inj hb)
        have := hvs.span hi ha
        omega
      | cons j b =>
        obtain ⟨w, hj, hb⟩ := hinner hb
        obtain ⟨rfl, rfl⟩ := hvs.once hs hi hj ha hb
        rfl

end Planting

theorem within_plantItems {items : List (Document (Value X))}
    (hitems : ∀ item ∈ items, ∀ k : Heap X, k.Within (plant item k).2) (k : Heap X) :
    k.Within (plantItems items k).2 := by
  induction items generalizing k with
  | nil => exact .refl k
  | cons item rest ih =>
    exact (hitems item List.mem_cons_self k).trans
      (ih (fun item hitem => hitems item (List.mem_cons_of_mem _ hitem)) (plant item k).2)

/-- To plant a document is to allocate. -/
theorem within_plant (d : Document (Value X)) (k : Heap X) : k.Within (plant d k).2 := by
  induction d using Document.induct generalizing k with
  | leaf value => exact .refl k
  | array items ih => exact (within_plantItems ih k).trans (within_allocate _ _)
  | object fields ih =>
    simp only [plant, plantFields_eq]
    exact (within_plantItems ih k).trans (within_allocate _ _)

/-- A container that was planted holds what was planted in it. -/
theorem slots_of_planted {k k' : Heap X} {c : Cell X} (hk : (k.allocate c).2.Within k') :
    k'.slots k.size = c.slots := by
  simp [Heap.slots, hk.cell? (cell?_allocate_self k c)]

section Planting

variable {k' : Heap X} {base : Nat}

theorem rootedAll_plantItems {items : List (Document (Value X))}
    (hitems : ∀ item ∈ items, ∀ k : Heap X, (plant item k).2.Within k' →
      k'.Rooted base k.size (plant item k).2.size (plant item k).1)
    (k : Heap X) (hk : (plantItems items k).2.Within k') :
    k'.RootedAll base k.size (plantItems items k).2.size (plantItems items k).1 := by
  induction items generalizing k with
  | nil => exact .nil
  | cons item rest ih =>
    have hhead := within_plant item k
    have hrest : (plant item k).2.Within (plantItems rest (plant item k).2).2 :=
      within_plantItems (fun item _ => within_plant item) _
    exact .cons hhead.size_le hrest.size_le
      (hitems item List.mem_cons_self k (hrest.trans hk))
      (ih (fun item hitem => hitems item (List.mem_cons_of_mem _ hitem)) _ hk)

/-- A planted document is a tree: each of its containers stands at one position.  The
leaves lead to old containers only. -/
theorem rooted_plant {d : Document (Value X)} (hold : k'.Sealed (· < base))
    (hd : d.Tidy fun v => ∀ r, v = .node r → r < base) (k : Heap X)
    (hk : (plant d k).2.Within k') :
    k'.Rooted base k.size (plant d k).2.size (plant d k).1 := by
  induction hd generalizing k with
  | leaf hv =>
    refine ⟨fun hq => .inl (hold.of_follow hv hq), fun hq ha _ => ?_⟩
    exact absurd (hold.of_follow hv ha) (Nat.not_lt_of_le hq)
  | @array items _ ih =>
    have hitems : k.Within (plantItems items k).2 :=
      within_plantItems (fun item _ => within_plant item) k
    have hslots := slots_of_planted hk
    simp only [plant, size_allocate] at hk ⊢
    exact RootedAll.node hitems.size_le hslots
      (rootedAll_plantItems ih k ((within_allocate _ _).trans hk))
  | @object fields hnames _ ih =>
    have hitems : k.Within (plantItems (fields.map Prod.snd) k).2 :=
      within_plantItems (fun item _ => within_plant item) k
    simp only [plant, plantFields_eq, size_allocate] at hk ⊢
    have hlen : (plantItems (fields.map Prod.snd) k).1.length = (fields.map Prod.fst).length := by
      simp [length_plantItems]
    have hslots := slots_of_planted hk
    simp only [Cell.slots, Table.values, Table.entries_ofList_zip hnames hlen] at hslots
    rw [List.map_snd_zip (Nat.le_of_eq hlen)] at hslots
    exact RootedAll.node hitems.size_le hslots
      (rootedAll_plantItems ih k ((within_allocate _ _).trans hk))

end Planting

/-! ## The tree that a graph is -/

/-- The graph below a value is the tree of a document. -/
inductive Unfolds (k : Heap X) : Value X → Document (Value X) → Prop
  | leaf {v : Value X} : v.isContainer = false → Unfolds k v (.leaf v)
  | array {r : Ref} {items : List (Value X)} {docs : List (Document (Value X))} :
      k.cell? r = some (.array items) → List.Forall₂ (Unfolds k) items docs →
        Unfolds k (.node r) (.array docs)
  | object {r : Ref} {t : Table (Value X)} {fields : List (String × Document (Value X))} :
      k.cell? r = some (.object t) → t.keys = fields.map Prod.fst →
        List.Forall₂ (Unfolds k) t.values (fields.map Prod.snd) →
          Unfolds k (.node r) (.object fields)

/-- The document of a graph has scalars as leaves, and no name twice in an object. -/
theorem Unfolds.tidy {k : Heap X} {v : Value X} {d : Document (Value X)} (h : k.Unfolds v d) :
    d.Tidy fun v => v.isContainer = false := by
  have hall : ∀ {vs : List (Value X)} {docs : List (Document (Value X))},
      (∀ doc ∈ docs, ∀ {v}, k.Unfolds v doc → doc.Tidy fun v => v.isContainer = false) →
        List.Forall₂ k.Unfolds vs docs → ∀ doc ∈ docs, doc.Tidy fun v => v.isContainer = false := by
    intro vs docs ih hdocs doc hdoc
    obtain ⟨i, hi, rfl⟩ := List.getElem_of_mem hdoc
    exact ih _ hdoc (hdocs.get (hdocs.length_eq ▸ hi) hi)
  induction d using Document.induct generalizing v with
  | leaf value =>
    cases h with
    | leaf hv => exact .leaf hv
  | array items ih =>
    cases h with
    | array _ hdocs => exact .array (hall ih hdocs)
  | object fields ih =>
    cases h with
    | @object _ t _ _ hkeys hdocs => exact .object (hkeys ▸ t.keys_nodup) (hall ih hdocs)

theorem unfoldsAll_plantItems {k' : Heap X} {items : List (Document (Value X))}
    (hitems : ∀ item ∈ items, ∀ k : Heap X, (plant item k).2.Within k' →
      k'.Unfolds (plant item k).1 item)
    (k : Heap X) (hk : (plantItems items k).2.Within k') :
    List.Forall₂ k'.Unfolds (plantItems items k).1 items := by
  induction items generalizing k with
  | nil => exact .nil
  | cons item rest ih =>
    have hrest : (plant item k).2.Within (plantItems rest (plant item k).2).2 :=
      within_plantItems (fun item _ => within_plant item) _
    exact .cons (hitems item List.mem_cons_self k (hrest.trans hk))
      (ih (fun item hitem => hitems item (List.mem_cons_of_mem _ hitem)) _ hk)

/-- What is planted for a document of scalars unfolds to it. -/
theorem unfolds_plant {k' : Heap X} {d : Document (Value X)}
    (hd : d.Tidy fun v => v.isContainer = false) (k : Heap X) (hk : (plant d k).2.Within k') :
    k'.Unfolds (plant d k).1 d := by
  induction hd generalizing k with
  | leaf hv => exact .leaf hv
  | array _ ih =>
    exact .array (hk.cell? (cell?_allocate_self _ _))
      (unfoldsAll_plantItems ih k ((within_allocate _ _).trans hk))
  | @object fields hnames _ ih =>
    simp only [plant, plantFields_eq] at hk ⊢
    have hall := unfoldsAll_plantItems ih k ((within_allocate _ _).trans hk)
    have hlen : (plantItems (fields.map Prod.snd) k).1.length = (fields.map Prod.fst).length := by
      simp [length_plantItems]
    refine .object (hk.cell? (cell?_allocate_self _ _)) ?_ ?_
    · rw [Table.keys, Table.entries_ofList_zip hnames hlen]
      exact List.map_fst_zip (Nat.le_of_eq hlen.symm)
    · rw [Table.values, Table.entries_ofList_zip hnames hlen, List.map_snd_zip (Nat.le_of_eq hlen)]
      exact hall

end Heap

end TypeDescription
