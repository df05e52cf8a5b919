import Mathlib.Data.List.Forall2
import TypeDescription.Literal.OfGraph
import TypeDescription.Proofs.Graph.View
import TypeDescription.Proofs.Run

/-!
# What is written for a value

`Heap.Writes` relates a value of a graph to the literal that is written for it,
whatever the number of levels.  A container is written item by item
(`Writes.array`) and field by field, without the undefined ones
(`Writes.object`).

`Literal.follow` follows a path in a literal as `Heap.resolve` does in a graph,
and `Writes.step?` says that a step in the graph is a step in the literal.  A
literal with a path under `$ref` stands for what that path leads to, which
`Literal.deref?` finds.
-/

namespace TypeDescription

/-! ## Following paths -/

namespace Literal

/-- Follow one step. -/
def step? : Literal → Step → Option Literal
  | .leaf _, _ => none
  | .array items, step => step.elementIndex?.bind fun i => items[i]?
  | .object fields, step => (Document.object fields).get? step.name

/-- The literal at the end of a path. -/
def follow (root : Literal) (path : Path) : Option Literal :=
  path.foldlM step? root

/-- What a literal inside another one stands for: a token for the literal that
its path leads to, and every other one for itself. -/
def deref? (root here : Literal) : Option Literal :=
  match here.refPath? with
  | some text => (Path.parse? text).bind root.follow
  | none => some here

/-- Follow one step and replace the token that is met. -/
def hop (root here : Literal) (step : Step) : Option Literal :=
  (here.step? step).bind root.deref?

/-- Follow a path and replace every token that is met. -/
def chase (root here : Literal) (path : Path) : Option Literal :=
  path.foldlM root.hop here

theorem chase_cons {root here M : Literal} {step : Step} (h : root.hop here step = some M)
    (path : Path) : root.chase here (step :: path) = root.chase M path := by
  unfold chase
  rw [List.foldlM_cons, h]
  rfl

theorem chase_append (root here : Literal) (path path' : Path) :
    root.chase here (path ++ path') = (root.chase here path).bind fun M => root.chase M path' := by
  unfold chase
  rw [List.foldlM_append]
  rfl

end Literal

/-! ## Written values -/

/-- Whether a value is written where undefined ones are left out. -/
def Value.isDefined {X : Type} (v : Value X) : Bool :=
  !v.unwrap.isUndefined

/-! ## Fields -/

/-- To look a name up among some of the entries of a table is to look it up and
see whether it is one of them. -/
theorem Table.find?_filter {α : Type} (t : Table α) (wanted : α → Bool) (name : String) :
    ((t.entries.filter fun entry => wanted entry.2).find? fun entry => entry.1 == name).map
      Prod.snd = (t.get? name).filter wanted := by
  have hkeys : ((t.entries.filter fun entry => wanted entry.2).map Prod.fst).Nodup :=
    t.keys_nodup.sublist (List.filter_sublist.map _)
  show (Table.mk _ hkeys).get? name = _
  refine Option.ext fun value => ?_
  rw [Table.get?_eq_some_iff, Option.filter_eq_some_iff, Table.get?_eq_some_iff, List.mem_filter]

namespace Heap

/-- A literal is written for a value. -/
def Writes (k : Heap Expression) (limit : UInt32) (v : Value Expression) (L : Literal) : Prop :=
  ∃ room, k.toLiteralAt limit room v = .ok L

section Writes

variable {k : Heap Expression} {limit : UInt32} {v : Value Expression} {L : Literal} {r : Ref}

/-- Markers are looked through. -/
theorem toLiteralAt_unwrap (k : Heap Expression) (limit : UInt32) (room : Nat)
    (v : Value Expression) : k.toLiteralAt limit room v.unwrap = k.toLiteralAt limit room v := by
  cases room <;> (unfold toLiteralAt; rw [Value.unwrap_unwrap])

theorem Writes.of_unwrap {w : Value Expression} (h : k.Writes limit v L)
    (heq : w.unwrap = v.unwrap) : k.Writes limit w L := by
  obtain ⟨room, h⟩ := h
  refine ⟨room, ?_⟩
  rw [← toLiteralAt_unwrap, heq, toLiteralAt_unwrap, h]

/-- What is no container is written alike in all graphs. -/
theorem Writes.scalar (h : k.Writes limit v L) (hv : v.unwrap.isContainer = false)
    (k' : Heap Expression) (limit' : UInt32) (room : Nat) :
    k'.toLiteralAt limit' room v = .ok L := by
  obtain ⟨room', h⟩ := h
  unfold toLiteralAt at h ⊢
  cases hu : v.unwrap <;> simp_all [Value.isContainer]

/-- A list is written item by item. -/
theorem forall₂_of_viewToLiteral_list
    {child : Value Expression → Except LiteralError Literal} {items : List (Value Expression)}
    (h : viewToLiteral child (.list items) = .ok L) :
    ∃ written, L = .array written ∧ List.Forall₂ (fun v M => child v = .ok M) items written := by
  simp only [viewToLiteral, bind_eq_ok] at h
  obtain ⟨written, hwritten, h⟩ := h
  exact ⟨written, (Except.ok.inj h).symm, forall₂_of_mapM_ok hwritten⟩

/-- Named values are written field by field, without the undefined ones. -/
theorem forall₂_of_viewToLiteral_named
    {child : Value Expression → Except LiteralError Literal}
    {entries : List (String × Value Expression)}
    (h : viewToLiteral child (.named entries) = .ok L) :
    ∃ fields, L = .object fields ∧
      List.Forall₂ (fun entry field => field.1 = entry.1 ∧ child entry.2 = .ok field.2)
        (entries.filter fun entry => entry.2.isDefined) fields := by
  simp only [viewToLiteral, bind_eq_ok] at h
  obtain ⟨fields, hfields, h⟩ := h
  refine ⟨fields, (Except.ok.inj h).symm, (forall₂_of_mapM_ok hfields).imp fun entry field hf => ?_⟩
  obtain ⟨item, hitem, hf⟩ := bind_eq_ok.1 hf
  obtain rfl := Except.ok.inj hf
  exact ⟨rfl, hitem⟩

/-- A container is written as a walk sees it. -/
private theorem Writes.view (h : k.Writes limit (.node r) L) :
    ∃ room, viewToLiteral (k.toLiteralAt limit room) (k.view r) = .ok L := by
  obtain ⟨room, h⟩ := h
  cases room with
  | zero => cases h
  | succ room => exact ⟨room, h⟩

/-- An array is written item by item. -/
theorem Writes.array {items : List (Value Expression)} (h : k.Writes limit (.node r) L)
    (hcell : k.cell? r = some (.array items)) :
    ∃ written, L = .array written ∧ List.Forall₂ (k.Writes limit) items written := by
  obtain ⟨room, hview⟩ := h.view
  unfold Heap.view at hview
  rw [hcell] at hview
  obtain ⟨written, hL, hall⟩ := forall₂_of_viewToLiteral_list hview
  exact ⟨written, hL, hall.imp fun _ _ hw => ⟨room, hw⟩⟩

/-- A missing container is written as an array. -/
theorem Writes.array_of_none (h : k.Writes limit (.node r) L) (hcell : k.cell? r = none) :
    ∃ written, L = .array written := by
  obtain ⟨room, hview⟩ := h.view
  unfold Heap.view at hview
  rw [hcell] at hview
  obtain ⟨written, hL, _⟩ := forall₂_of_viewToLiteral_list hview
  exact ⟨written, hL⟩

/-- An object is written field by field, without the undefined ones. -/
theorem Writes.object {t : Table (Value Expression)} (h : k.Writes limit (.node r) L)
    (hcell : k.cell? r = some (.object t)) :
    ∃ fields, L = .object fields ∧
      List.Forall₂ (fun entry field => field.1 = entry.1 ∧ k.Writes limit entry.2 field.2)
        (t.entries.filter fun entry => entry.2.isDefined) fields := by
  obtain ⟨room, hview⟩ := h.view
  unfold Heap.view at hview
  rw [hcell] at hview
  obtain ⟨fields, hL, hall⟩ := forall₂_of_viewToLiteral_named hview
  exact ⟨fields, hL, hall.imp fun _ _ hw => ⟨hw.1, room, hw.2⟩⟩

/-- A container is written as a container. -/
theorem Writes.isContainer_eq_false {s : Literal.Scalar} (h : k.Writes limit v (.leaf s)) :
    v.unwrap.isContainer = false := by
  cases hv : v.unwrap with
  | node r =>
    have hnode : k.Writes limit (.node r) (.leaf s) := h.of_unwrap hv.symm
    obtain ⟨room, hview⟩ := hnode.view
    cases hr : k.view r with
    | list items =>
      rw [hr] at hview
      obtain ⟨_, hL, _⟩ := forall₂_of_viewToLiteral_list hview
      cases hL
    | named entries =>
      rw [hr] at hview
      obtain ⟨_, hL, _⟩ := forall₂_of_viewToLiteral_named hview
      cases hL
  | _ => rfl

/-- A defined field is written under its name, and no other. -/
theorem Writes.get? {t : Table (Value Expression)} (h : k.Writes limit (.node r) L)
    (hcell : k.cell? r = some (.object t)) (name : String) :
    Option.Rel (k.Writes limit) ((t.get? name).filter Value.isDefined) (L.get? name) := by
  obtain ⟨fields, rfl, hfields⟩ := h.object hcell
  rw [← Table.find?_filter]
  exact rel_find?_of_forall₂ hfields name

/-- A step to a defined value is a step in what is written. -/
theorem Writes.step? {step : Step} {u : Value Expression} (h : k.Writes limit (.node r) L)
    (hplain : ∀ c, k.cell? r = some c → (∃ items, c = .array items) ∨ ∃ t, c = .object t)
    (hu : k.step? (.node r) step = some u) (hdefined : u.isDefined = true) :
    ∃ M, L.step? step = some M ∧ k.Writes limit u M := by
  cases hcell : k.cell? r with
  | none => simp [Heap.step?, content?, hcell] at hu
  | some c =>
    simp only [Heap.step?, content?, hcell] at hu
    rcases hplain c hcell with ⟨items, rfl⟩ | ⟨t, rfl⟩
    · obtain ⟨written, rfl, hall⟩ := h.array hcell
      obtain ⟨i, hi, hitem⟩ := Option.bind_eq_some_iff.1 hu
      obtain ⟨hlt, rfl⟩ := List.getElem?_eq_some_iff.1 hitem
      have hlt' : i < written.length := hall.length_eq ▸ hlt
      refine ⟨written[i], ?_, hall.get hlt hlt'⟩
      simp [Literal.step?, hi, hlt']
    · have hget := h.get? hcell step.name
      have hentry : t.get? step.name = some u := hu
      rw [hentry, Option.filter_some_pos hdefined] at hget
      obtain ⟨fields, rfl, _⟩ := h.object hcell
      generalize hM : Document.get? step.name (.object fields) = M at hget
      cases hget with
      | some hM' => exact ⟨_, hM, hM'⟩

end Writes

end Heap

end TypeDescription
