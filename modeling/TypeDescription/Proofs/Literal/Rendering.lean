import TypeDescription.Proofs.Graph.Encoding
import TypeDescription.Proofs.Literal.Written

/-!
# The literal of a graph

A graph is encoded as a tree, and the tree is written as a literal.  Read with
its tokens replaced, the literal unfolds the graph: `Heap.Renders` says that a
relation between containers and literals goes along with every item and every
field, and `exists_renders` that such a relation holds between the root of the
graph and its literal.

The graph must be `Proper`, so that nothing in it is written like a token.  An
exempt container is written where it stands and not walked, so what is inside it
stands for itself.
-/

namespace TypeDescription

/-! ## Graphs without tokens -/

/-- An array, or an object in which no text stands under `$ref`. -/
structure Cell.Plain (c : Cell Expression) : Prop where
  shape : (∃ items, c = .array items) ∨ ∃ t, c = .object t
  tokenless : ∀ t v, c = .object t → t.get? refKey = some v → v.unwrap.isContainer = true

/-- The containers in a value are among the first ones of a heap. -/
def Value.Below (size : Nat) (v : Value Expression) : Prop :=
  ∀ r, v.unwrap = .node r → r < size

/-- All containers are plain and contain no others than those of the heap. -/
structure Heap.Proper (h : Heap Expression) : Prop where
  plain : ∀ r c, h.cell? r = some c → c.Plain
  below : ∀ r c, h.cell? r = some c → ∀ v ∈ c.slots, v.Below h.size

/-! ## Renderings -/

/-- A literal is written where a value of a graph stands: for a container, a
literal that stands for a related one. -/
inductive Literal.Holds (root : Literal) (R : Ref → Literal → Prop) :
    Value Expression → Literal → Prop
  | container {v : Value Expression} {r : Ref} {here M : Literal} : v.unwrap = .node r →
      root.deref? here = some M → R r M → Holds root R v here
  | scalar {v : Value Expression} {here : Literal} : v.unwrap.isContainer = false →
      (∀ (k : Heap Expression) limit room, k.toLiteralAt limit room v = .ok here) →
      Holds root R v here

/-- A relation between containers and literals that goes along with items and
defined fields. -/
structure Heap.Renders (h : Heap Expression) (root : Literal) (R : Ref → Literal → Prop) :
    Prop where
  array : ∀ {r M items}, R r M → h.cell? r = some (.array items) →
    ∃ written, M = .array written ∧ List.Forall₂ (root.Holds R) items written
  object : ∀ {r M t}, R r M → h.cell? r = some (.object t) →
    ∃ fields, M = .object fields ∧
      List.Forall₂ (fun entry field => field.1 = entry.1 ∧ root.Holds R entry.2 field.2)
        (t.entries.filter fun entry => entry.2.isDefined) fields

/-- A defined field holds what is written under its name, and no other name
does. -/
theorem Heap.Renders.get? {h : Heap Expression} {root : Literal} {R : Ref → Literal → Prop}
    (H : h.Renders root R) {r : Ref} {M : Literal} {t : Table (Value Expression)} (hM : R r M)
    (hcell : h.cell? r = some (.object t)) (name : String) :
    Option.Rel (root.Holds R) ((t.get? name).filter Value.isDefined) (M.get? name) := by
  obtain ⟨fields, rfl, hfields⟩ := H.object hM hcell
  rw [← Table.find?_filter]
  exact rel_find?_of_forall₂ hfields name

/-! ## Tokens -/

namespace Literal

/-- The literal of a token. -/
def token (first : Path) : Literal :=
  .object [(refKey, .leaf (.string first.text))]

theorem refPath?_token (first : Path) : (token first).refPath? = some first.text :=
  rfl

/-- A token has a scalar under `$ref`. -/
theorem get?_of_refPath? {M : Literal} {text : String} (h : M.refPath? = some text) :
    ∃ s, M.get? refKey = some (.leaf s) := by
  unfold refPath? at h
  split at h
  · next key value =>
    split at h
    · next hkey =>
      subst hkey
      cases value with
      | leaf s => exact ⟨s, by simp [Document.get?]⟩
      | array _ => cases h
      | object _ => cases h
    · cases h
  · cases h

end Literal

namespace Heap

section Tokens

variable {k : Heap Expression} {limit : UInt32} {r : Ref} {M : Literal}

/-- In what is written for a plain container nothing but a container stands under
`$ref`. -/
theorem Writes.get?_refKey_ne (h : k.Writes limit (.node r) M)
    (hplain : ∀ c, k.cell? r = some c → c.Plain) (s : Literal.Scalar) :
    M.get? refKey ≠ some (.leaf s) := by
  intro hleaf
  cases hcell : k.cell? r with
  | none =>
    obtain ⟨written, rfl⟩ := h.array_of_none hcell
    cases hleaf
  | some c =>
    have hc := hplain c hcell
    rcases hc.shape with ⟨items, rfl⟩ | ⟨t, rfl⟩
    · obtain ⟨written, rfl, _⟩ := h.array hcell
      cases hleaf
    · have hget := h.get? hcell refKey
      rw [hleaf] at hget
      generalize hv : (t.get? refKey).filter Value.isDefined = found at hget
      cases hget with
      | @some v _ hwritten =>
        have hcontainer := hc.tokenless t v rfl (Option.filter_eq_some_iff.1 hv).1
        rw [hwritten.isContainer_eq_false] at hcontainer
        cases hcontainer

/-- What is written for a plain container is no token. -/
theorem Writes.refPath?_eq_none (h : k.Writes limit (.node r) M)
    (hplain : ∀ c, k.cell? r = some c → c.Plain) : M.refPath? = none := by
  cases hpath : M.refPath? with
  | none => rfl
  | some text =>
    obtain ⟨s, hs⟩ := Literal.get?_of_refPath? hpath
    exact absurd hs (h.get?_refKey_ne hplain s)

/-- A token is written as one. -/
theorem Writes.eq_token {first : Trail} (h : k.Writes limit (.node r) M)
    (hcell : k.cell? r = some (tokenCell first)) : M = Literal.token first.reverse := by
  obtain ⟨fields, rfl, hfields⟩ := h.object hcell
  have hentries : ((Table.ofList [(refKey, Value.string (Path.text first.reverse))]).entries.filter
      fun entry => entry.2.isDefined) =
        [(refKey, (.string (Path.text first.reverse) : Value Expression))] :=
    rfl
  rw [hentries] at hfields
  cases hfields with
  | @cons _ field _ _ hfield hrest =>
    cases hrest
    obtain ⟨key, value⟩ := field
    obtain ⟨rfl, hvalue⟩ := hfield
    obtain rfl := Except.ok.inj (hvalue.scalar rfl k limit 0)
    rfl

end Tokens

/-! ## The literal of an encoded graph -/

/-- A literal is written for a container: in its place in the tree, or where it
stood exempt. -/
def Rendered (h k : Heap Expression) (limit : UInt32) (places : List Place) (r : Ref)
    (M : Literal) : Prop :=
  (∃ p ∈ places, p.source = r ∧ k.Writes limit (.node p.target) M) ∨
    r < h.size ∧ k.Writes limit (.node r) M

section Rendered

variable {h k : Heap Expression} {limit : UInt32} {room : Nat} {places : List Place} {seen : Seen}
  {x t : Value Expression} {L : Literal}

theorem Proper.shape (hh : h.Proper) (r : Ref) :
    h.view r = .list [] ∨ (∃ items, h.cell? r = some (.array items) ∧ h.view r = .list items) ∨
      ∃ t, h.cell? r = some (.object t) ∧ h.view r = .named t.entries := by
  unfold view
  cases hcell : h.cell? r with
  | none => exact .inl rfl
  | some c =>
    rcases (hh.plain r c hcell).shape with ⟨items, rfl⟩ | ⟨t, rfl⟩
    · exact .inr (.inl ⟨items, rfl, rfl⟩)
    · exact .inr (.inr ⟨t, rfl, rfl⟩)

/-- The names in a plain container are distinct. -/
theorem nodup_names_of_plain {r : Ref} (hplain : ∀ c, k.cell? r = some c → c.Plain) :
    (k.view r).names.Nodup := by
  unfold view
  cases hcell : k.cell? r with
  | none => exact List.nodup_nil
  | some c =>
    rcases (hplain c hcell).shape with ⟨items, rfl⟩ | ⟨t, rfl⟩
    · exact List.nodup_nil
    · exact t.keys_nodup

theorem Proper.nodup_names (hh : h.Proper) (r : Ref) : (h.view r).names.Nodup :=
  nodup_names_of_plain (hh.plain r)

/-- What stands for a value is a container if the value is one, or else looks
like the value behind its markers. -/
theorem Stands.unwrap {trail : Trail} {v u : Value Expression}
    (hst : k.Stands places seen trail v u) :
    u.unwrap = v.unwrap ∨ (∃ r, v = .node r) ∧ ∃ q, u = .node q := by
  cases hst with
  | leaf _ =>
    left
    cases v <;> rfl
  | first _ => exact .inr ⟨⟨_, rfl⟩, _, rfl⟩
  | again _ _ _ => exact .inr ⟨⟨_, rfl⟩, _, rfl⟩

/-- Where a value stands a defined one stands if it is defined. -/
theorem Stands.isDefined_eq {trail : Trail} {v u : Value Expression}
    (hst : k.Stands places seen trail v u) : u.isDefined = v.isDefined := by
  unfold Value.isDefined
  rcases hst.unwrap with heq | ⟨⟨r, rfl⟩, q, rfl⟩
  · rw [heq]
  · rfl

/-- The new container of a place is plain. -/
theorem Proper.plain_target (hh : h.Proper) {p : Place} (hp : h.Image k places seen p) :
    ∀ c, k.cell? p.target = some c → c.Plain := by
  intro c hc
  have hshape : (∃ items, c = .array items) ∨ ∃ t, c = .object t := by
    obtain ⟨us, hcell, _⟩ := hp
    rw [hcell] at hc
    obtain rfl := Option.some.inj hc
    cases h.view p.source with
    | list items => exact .inl ⟨us, rfl⟩
    | named fields => exact .inr ⟨_, rfl⟩
  refine ⟨hshape, fun t u ht hu => ?_⟩
  subst ht
  have hget : k.get? (.node p.target) refKey = some u := by
    simp [Heap.get?, content?, hc, hu]
  obtain ⟨fields, i, v, hview, hmem, hst⟩ := hp.get? (hh.nodup_names _) hget
  have hv : v.unwrap.isContainer = true := by
    rcases hh.shape p.source with hlist | ⟨items, _, hlist⟩ | ⟨t', hcell, hnamed⟩
    · rw [hlist] at hview
      cases hview
    · rw [hlist] at hview
      cases hview
    · rw [hnamed] at hview
      obtain rfl := View.named.inj hview
      exact (hh.plain _ _ hcell).tokenless t' v rfl ((Table.get?_eq_some_iff _).2 hmem)
  rcases hst.unwrap with heq | ⟨_, q, rfl⟩
  · rw [heq]
    exact hv
  · rfl

/-- The trail of a place leads to the literal of its new container. -/
theorem Entered.follow_trail (E : h.Entered h [] [] room x places k seen t) (hh : h.Proper)
    (hL : k.Writes limit t L) :
    ∀ p ∈ places, ∃ M, L.follow p.trail.reverse = some M ∧ k.Writes limit (.node p.target) M := by
  have himage : ∀ p ∈ places, h.Image k places (places.map Place.visit) p :=
    fun p hp => E.seen_eq ▸ E.walk.images p hp
  refine E.grown.induct
    (motive := fun p => ∃ M, L.follow p.trail.reverse = some M ∧
      k.Writes limit (.node p.target) M) ?_ ?_
  · intro p hp hroot
    obtain ⟨htrail, hx⟩ := hroot
    rw [E.target_eq hp htrail hx] at hL
    refine ⟨L, ?_, hL⟩
    rw [htrail]
    rfl
  · intro p hp p' hp' hin ih
    obtain ⟨step, htrail, hslot⟩ := hin
    obtain ⟨M, hM, hwritten⟩ := ih
    obtain ⟨i, u, hstep, hst⟩ := (himage p hp).step? (hh.nodup_names _) hslot
    obtain rfl : u = .node p'.target := Stands.eq_target E.source_inj hp' (htrail ▸ hst)
    obtain ⟨M', hstep', hwritten'⟩ := hwritten.step?
      (fun c hc => (hh.plain_target (himage p hp) c hc).shape) hstep rfl
    refine ⟨M', ?_, hwritten'⟩
    rw [htrail, List.reverse_cons]
    simp only [Literal.follow] at hM ⊢
    rw [List.foldlM_append, hM]
    simp [hstep']

/-- What is written for a value of the graph stands for it. -/
theorem Proper.holds_of_writes (hh : h.Proper) (hk : h.Within k) {v : Value Expression}
    {M : Literal} (hv : v.Below h.size) (hM : k.Writes limit v M) :
    L.Holds (Rendered h k limit places) v M := by
  cases hu : v.unwrap with
  | node r =>
    have hr := hv r hu
    have hnode : k.Writes limit (.node r) M := hM.of_unwrap hu.symm
    have htoken : M.refPath? = none := by
      refine hnode.refPath?_eq_none fun c hc => hh.plain r c ?_
      rw [← hk.cell?_eq r hr, hc]
    refine .container hu ?_ (.inr ⟨hr, hnode⟩)
    unfold Literal.deref?
    rw [htoken]
  | _ =>
    have hscalar : v.unwrap.isContainer = false := by
      rw [hu]
      rfl
    exact .scalar hscalar (hM.scalar hscalar)

/-- What is written for the value in a slot stands for the old value. -/
theorem Entered.holds_of_stands (E : h.Entered h [] [] room x places k seen t) (hh : h.Proper)
    (hL : k.Writes limit t L) {trail : Trail} {v u : Value Expression} {M : Literal}
    (hst : k.Stands places seen trail v u) (hv : v.Below h.size) (hM : k.Writes limit u M) :
    L.Holds (Rendered h k limit places) v M := by
  cases hst with
  | leaf _ =>
    refine hh.holds_of_writes E.walk.within hv (hM.of_unwrap ?_)
    cases v <;> rfl
  | @first r q hmem =>
    have htoken := hM.refPath?_eq_none (hh.plain_target (E.walk.images _ hmem))
    refine .container rfl ?_ (.inl ⟨_, hmem, rfl, hM⟩)
    unfold Literal.deref?
    rw [htoken]
  | @again r q first hseen _ hcell =>
    rw [E.seen_eq] at hseen
    obtain ⟨p, hp, hvisit⟩ := List.mem_map.1 hseen
    simp only [Place.visit, Prod.mk.injEq] at hvisit
    obtain ⟨hsource, htrail⟩ := hvisit
    obtain ⟨M', hfollow, hwritten⟩ := E.follow_trail hh hL p hp
    refine .container rfl ?_ (.inl ⟨p, hp, hsource, hwritten⟩)
    unfold Literal.deref?
    rw [hM.eq_token hcell, Literal.refPath?_token]
    dsimp only
    rw [Path.parse?_text, Option.bind_some, ← htrail, hfollow]

/-- The values in a new container stand for the old ones, one by one. -/
theorem Image.forall₂ {p : Place} (hp : h.Image k places seen p) :
    ∃ us, k.cell? p.target = some ((h.view p.source).fill us) ∧
      List.Forall₂ (fun v u => ∃ trail, k.Stands places seen trail v u)
        (h.view p.source).values us := by
  obtain ⟨us, hcell, hlen, hall⟩ := hp
  refine ⟨us, hcell, ?_⟩
  rw [← View.slots_snd, List.forall₂_map_left_iff, List.forall₂_iff_get]
  refine ⟨hlen.symm, fun i hi hi' => ?_⟩
  have hst := hall i _ _ (List.getElem?_eq_getElem hi) (List.getElem?_eq_getElem hi')
  exact ⟨_, hst⟩

/-- An array of the graph is written item by item. -/
private theorem Entered.renders_array (E : h.Entered h [] [] room x places k seen t) (hh : h.Proper)
    (hL : k.Writes limit t L) {r : Ref} {M : Literal} {items : List (Value Expression)}
    (hM : Rendered h k limit places r M) (hcell : h.cell? r = some (.array items)) :
    ∃ written, M = .array written ∧
      List.Forall₂ (L.Holds (Rendered h k limit places)) items written := by
  have hbelow := hh.below r _ hcell
  rcases hM with ⟨p, hp, rfl, hM⟩ | ⟨hr, hM⟩
  · have hview : h.view p.source = .list items := by
      unfold view
      rw [hcell]
      rfl
    obtain ⟨us, hus, hall⟩ := (E.walk.images p hp).forall₂
    rw [hview] at hus hall
    obtain ⟨written, rfl, hwritten⟩ := hM.array hus
    refine ⟨written, rfl, forall₂_trans ?_ ((List.forall₂_and_left _ _).2 ⟨hbelow, hall⟩) hwritten⟩
    intro v u M hitem hu
    obtain ⟨hv, trail, hst⟩ := hitem
    exact E.holds_of_stands hh hL hst hv hu
  · obtain ⟨written, rfl, hall⟩ := hM.array (E.walk.within.cell? hcell)
    refine ⟨written, rfl, ((List.forall₂_and_left _ _).2 ⟨hbelow, hall⟩).imp ?_⟩
    intro v M hitem
    obtain ⟨hv, hu⟩ := hitem
    exact hh.holds_of_writes E.walk.within hv hu

/-- An object of the graph is written field by field, without the undefined ones. -/
private theorem Entered.renders_object (E : h.Entered h [] [] room x places k seen t)
    (hh : h.Proper) (hL : k.Writes limit t L) {r : Ref} {M : Literal}
    {t' : Table (Value Expression)} (hM : Rendered h k limit places r M)
    (hcell : h.cell? r = some (.object t')) :
    ∃ fields, M = .object fields ∧
      List.Forall₂ (fun entry field => field.1 = entry.1 ∧
          L.Holds (Rendered h k limit places) entry.2 field.2)
        (t'.entries.filter fun entry => entry.2.isDefined) fields := by
  have hbelow : ∀ entry ∈ t'.entries, entry.2.Below h.size := fun entry hentry =>
    hh.below r _ hcell _ (List.mem_map_of_mem hentry)
  rcases hM with ⟨p, hp, rfl, hM⟩ | ⟨hr, hM⟩
  · have hview : h.view p.source = .named t'.entries := by
      unfold view
      rw [hcell]
      rfl
    obtain ⟨us, hus, hall⟩ := (E.walk.images p hp).forall₂
    rw [hview] at hus hall
    obtain ⟨fields, rfl, hfields⟩ := hM.object hus
    have hlen : us.length = (View.named t'.entries).slots.length := by
      rw [View.length_slots, hall.length_eq]
    rw [View.entries_fill t'.keys_nodup hlen] at hfields
    refine ⟨fields, rfl, ?_⟩
    have hzip := (List.forall₂_and_left _ _).2 ⟨hbelow, forall₂_zip hall⟩
    have hfilter := List.rel_filter (p := fun entry => entry.2.isDefined)
      (q := fun entry => entry.2.isDefined) ?_ hzip
    · refine forall₂_trans ?_ hfilter hfields
      intro entry entry' field hentry hfield
      obtain ⟨hv, hname, trail, hst⟩ := hentry
      obtain ⟨hname', hu⟩ := hfield
      exact ⟨hname'.trans hname, E.holds_of_stands hh hL hst hv hu⟩
    · intro entry entry' hentry
      obtain ⟨_, _, trail, hst⟩ := hentry
      simp only [hst.isDefined_eq]
  · obtain ⟨fields, rfl, hfields⟩ := hM.object (E.walk.within.cell? hcell)
    have hbelow' : ∀ entry ∈ t'.entries.filter fun entry => entry.2.isDefined,
        entry.2.Below h.size := fun entry hentry => hbelow entry (List.mem_filter.1 hentry).1
    refine ⟨fields, rfl, ((List.forall₂_and_left _ _).2 ⟨hbelow', hfields⟩).imp ?_⟩
    intro entry field hentry
    obtain ⟨hv, hname, hu⟩ := hentry
    exact ⟨hname, hh.holds_of_writes E.walk.within hv hu⟩

/-- The literal of an encoded graph renders it. -/
theorem Entered.renders (E : h.Entered h [] [] room x places k seen t) (hh : h.Proper)
    (hL : k.Writes limit t L) : h.Renders L (Rendered h k limit places) where
  array hM hcell := E.renders_array hh hL hM hcell
  object hM hcell := E.renders_object hh hL hM hcell

end Rendered

/-- A graph that is encoded and written is rendered, from the root on. -/
theorem exists_renders {h k : Heap Expression} {codec depth : UInt32} {x t : Value Expression}
    {L : Literal} (hh : h.Proper) (hx : x.Below h.size) (henc : h.encoded codec x = .ok (t, k))
    (hL : k.toLiteral depth t = .ok L) :
    ∃ R, h.Renders L R ∧ ∀ r, x.unwrap = .node r → R r L := by
  obtain ⟨places, seen, E⟩ := encoded_walk (fun r _ => hh.nodup_names r) henc
  have hwritten : k.Writes depth t L := ⟨depth.toNat, hL⟩
  refine ⟨Rendered h k depth places, E.renders hh hwritten, fun r hr => ?_⟩
  cases hcont : x.isContainer with
  | true =>
    obtain ⟨p, hp, htrail, rfl⟩ := E.root_place hcont
    rw [E.target_eq hp htrail rfl] at hwritten
    exact .inl ⟨p, hp, Value.node.inj hr, hwritten⟩
  | false =>
    refine .inr ⟨hx r hr, hwritten.of_unwrap ?_⟩
    have hst := E.stands
    rcases hst.unwrap with heq | ⟨⟨r', rfl⟩, _⟩
    · exact (heq.trans hr).symm
    · cases hcont

end Heap

end TypeDescription
