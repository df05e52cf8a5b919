import TypeDescription.Proofs.Graph.Interchange
import TypeDescription.Proofs.Graph.Legible

/-!
# Documents with tokens

`decode_plant` is the main result: a document that is planted decodes if each
token in it has nothing but the path of an array or object that is no token, and
in the graph that comes out nothing passes for a token.

`Document.Site` says what stands where in a document.  The walk of a planted
document comes to the same positions (`Unfolds.stop_of_site`,
`Unfolds.site_of_stop`), to each container once, so the planted tree is legible.
-/

namespace TypeDescription

variable {X : Type}

/-! ## Positions in a document -/

/-- Items that are related are related where they stand. -/
theorem forall₂_ofIndex {α β : Type} {rel : α → β → Prop} {items : List α} {items' : List β}
    (h : List.Forall₂ rel items items') (start : Nat) :
    List.Forall₂ (fun slot slot' => slot.1 = slot'.1 ∧ rel slot.2 slot'.2)
      ((items.zipIdx start).map fun (item, i) => (Step.ofIndex i, item))
      ((items'.zipIdx start).map fun (item, i) => (Step.ofIndex i, item)) := by
  induction h generalizing start with
  | nil => exact .nil
  | cons hitem _ ih => exact .cons ⟨rfl, hitem⟩ (ih (start + 1))

namespace Document

variable {α β : Type}

/-- Whether a document is no array and no object. -/
def isLeaf : Document α → Bool
  | .leaf _ => true
  | _ => false

/-- The items or fields, each with the step that leads to it. -/
def slots : Document α → List (Step × Document α)
  | .leaf _ => []
  | .array items => items.zipIdx.map fun (item, i) => (.ofIndex i, item)
  | .object fields => fields.map fun (key, item) => (.key key, item)

/-- A document stands in another one, at the end of a trail. -/
inductive Site (d : Document α) : Trail → Document α → Prop
  | root : Site d [] d
  | slot {trail : Trail} {step : Step} {e e' : Document α} : Site d trail e →
      (step, e') ∈ e.slots → Site d (step :: trail) e'

theorem slots_map (f : α → β) (d : Document α) :
    (d.map f).slots = d.slots.map fun slot => (slot.1, slot.2.map f) := by
  cases d with
  | leaf value => rfl
  | array items => simp [map, mapItems_eq, slots, List.zipIdx_map, Function.comp_def]
  | object fields => simp [map, mapFields_eq, slots, Function.comp_def]

theorem get?_map (f : α → β) (key : String) (d : Document α) :
    (d.map f).get? key = (d.get? key).map (map f) := by
  cases d with
  | object fields =>
    simp [map, mapFields_eq, get?, List.find?_map, Function.comp_def]
  | _ => rfl

theorem isLeaf_map (f : α → β) (d : Document α) : (d.map f).isLeaf = d.isLeaf := by
  cases d <;> rfl

/-- What stands in a mapped document is mapped, and stands where it stood. -/
theorem Site.of_map {f : α → β} {d : Document α} {trail : Trail} {e : Document β}
    (h : (d.map f).Site trail e) : ∃ e₀, d.Site trail e₀ ∧ e = e₀.map f := by
  induction h with
  | root => exact ⟨d, .root, rfl⟩
  | slot _ hslot ih =>
    obtain ⟨e₀, h₀, rfl⟩ := ih
    rw [slots_map] at hslot
    obtain ⟨slot, hmem, heq⟩ := List.mem_map.1 hslot
    cases heq
    exact ⟨slot.2, .slot h₀ hmem, rfl⟩

theorem Site.map {d e : Document α} {trail : Trail} (f : α → β) (h : d.Site trail e) :
    (d.map f).Site trail (e.map f) := by
  induction h with
  | root => exact .root
  | slot _ hslot ih =>
    refine .slot ih ?_
    rw [slots_map]
    exact List.mem_map_of_mem (f := fun slot => (slot.1, slot.2.map f)) hslot

theorem tidy_of_slots {P : α → Prop} {d : Document α} (hleaf : ∀ value, d = .leaf value → P value)
    (hsteps : (d.slots.map Prod.fst).Nodup) (hparts : ∀ part ∈ d.slots, part.2.Tidy P) :
    d.Tidy P := by
  cases d with
  | leaf value => exact .leaf (hleaf value rfl)
  | array items =>
    refine .array fun item hitem => ?_
    obtain ⟨i, hi⟩ := List.getElem?_of_mem hitem
    exact hparts (.ofIndex i, item)
      (List.mem_map.2 ⟨(item, i), List.mem_zipIdx_iff_getElem?.2 hi, rfl⟩)
  | object fields =>
    refine .object (.of_map Step.key ?_) (List.forall_mem_map.2 fun field hfield => ?_)
    · simpa [slots, Function.comp_def] using hsteps
    · exact hparts (.key field.1, field.2)
        (List.mem_map_of_mem (f := fun field => (Step.key field.1, field.2)) hfield)

theorem map_map {γ : Type} (f : α → β) (g : β → γ) (d : Document α) :
    (d.map f).map g = d.map fun value => g (f value) := by
  induction d using Document.induct with
  | leaf value => rfl
  | array items ih => simpa [map, mapItems_eq] using ih
  | object fields ih =>
    simp only [map, mapFields_eq, List.map_map, object.injEq, List.map_inj_left]
    exact fun field hfield => congrArg (field.1, ·) (ih _ (List.mem_map_of_mem hfield))

theorem Tidy.map {P : β → Prop} {f : α → β} {d : Document α}
    (h : d.Tidy fun value => P (f value)) : (d.map f).Tidy P := by
  induction h with
  | leaf hvalue => exact .leaf hvalue
  | array _ ih =>
    rw [Document.map, mapItems_eq]
    exact .array (List.forall_mem_map.2 ih)
  | @object fields hnames _ ih =>
    have hvalues : (fields.map fun field => (field.1, field.2.map f)).map Prod.snd =
        (fields.map Prod.snd).map (Document.map f) := by
      simp [Function.comp_def]
    rw [Document.map, mapFields_eq]
    refine .object (by simpa [Function.comp_def] using hnames) ?_
    rw [hvalues]
    exact List.forall_mem_map.2 ih

theorem mergeItems_eq (items : List (Document α)) : mergeItems items = items.map merge := by
  induction items with
  | nil => rfl
  | cons item rest ih => rw [mergeItems, ih, List.map_cons]

theorem mergeFields_eq (taken fields : List (String × Document α)) :
    mergeFields taken fields = (fields.map fun field => (field.1, field.2.merge)).foldl
      (fun taken field => putField field.1 field.2 taken) taken := by
  induction fields generalizing taken with
  | nil => rfl
  | cons field rest ih => exact ih _

/-- Where no object has a name twice there is nothing to merge. -/
theorem Tidy.merge_eq {P : α → Prop} {d : Document α} (h : d.Tidy P) : d.merge = d := by
  induction h with
  | leaf _ => rfl
  | @array items _ ih =>
    rw [merge, mergeItems_eq, List.map_congr_left ih, List.map_id']
  | @object fields hnames _ ih =>
    have hmerged : (fields.map fun field => (field.1, field.2.merge)) = fields := by
      refine (List.map_congr_left fun field hfield => ?_).trans (List.map_id fields)
      rw [ih _ (List.mem_map_of_mem hfield)]
      rfl
    rw [merge, mergeFields_eq, hmerged]
    exact ofFields_of_nodup hnames

/-- In a tidy document each step leads to one thing. -/
theorem Tidy.nodup_steps {P : α → Prop} {d : Document α} (h : d.Tidy P) :
    (d.slots.map Prod.fst).Nodup := by
  cases h with
  | leaf _ => exact List.nodup_nil
  | @array items _ => exact Step.nodup_indices items
  | object hnames _ => exact Step.nodup_keys hnames

/-- What stands in a tidy document is tidy. -/
theorem Tidy.site {P : α → Prop} {d e : Document α} {trail : Trail} (hd : d.Tidy P)
    (h : d.Site trail e) : e.Tidy P := by
  induction h with
  | root => exact hd
  | slot _ hslot ih =>
    cases ih with
    | leaf _ => cases hslot
    | array hitems =>
      obtain ⟨⟨item, i⟩, hitem, heq⟩ := List.mem_map.1 hslot
      cases heq
      exact hitems _ (List.fst_mem_of_mem_zipIdx hitem)
    | object _ hfields =>
      obtain ⟨field, hfield, heq⟩ := List.mem_map.1 hslot
      cases heq
      exact hfields _ (List.mem_map_of_mem hfield)

/-- In a tidy document one thing stands at a place. -/
theorem Tidy.site_unique {P : α → Prop} {d e e' : Document α} {trail : Trail} (hd : d.Tidy P)
    (h : d.Site trail e) (h' : d.Site trail e') : e = e' := by
  induction h generalizing e' with
  | root =>
    cases h'
    rfl
  | slot hsite hslot ih =>
    cases h' with
    | slot hsite' hslot' =>
      obtain rfl := ih hsite'
      have hsteps := (hd.site hsite).nodup_steps
      exact congrArg Prod.snd (List.inj_on_of_nodup_map hsteps hslot hslot' rfl)

end Document

/-! ## Tokens in a document -/

namespace Encoded

/-- The path under `$ref`, if there is one. -/
def path? (e : Encoded X) : Option Path :=
  match e.get? refKey with
  | some (.leaf (.string text)) => Path.parse? text
  | _ => none

/-- Each token in a document has nothing but the path of an array or object that is no
token, wherever that stands. -/
def Referring (d : Encoded X) : Prop :=
  ∀ trail e, d.Site trail e → path? e ≠ none →
    ∃ first f, d.Site first f ∧ f.isLeaf = false ∧ path? f = none ∧ e = token first.reverse

theorem path?_token (first : Path) : path? (token first : Encoded X) = some first := by
  simp [path?, token, Document.get?, Path.parse?_text]

/-- There is only a text in a token. -/
theorem site_token {path : Path} {trail : Trail} {e : Encoded X}
    (h : (token path).Site trail e) : e = token path ∨ e.isLeaf = true := by
  induction h with
  | root => exact .inl rfl
  | @slot trail step e e' _ hslot ih =>
    rcases ih with rfl | hleaf
    · obtain ⟨_, rfl⟩ := Prod.mk.inj (List.mem_singleton.1 hslot)
      exact .inr rfl
    · cases e with
      | leaf _ => cases hslot
      | _ => cases hleaf

/-- A document in which tokens have the paths of other parts is no token. -/
theorem Referring.path?_eq_none {d : Encoded X} (h : Referring d) : path? d = none := by
  by_contra hpath
  obtain ⟨first, f, hsite, hleaf, hnone, heq⟩ := h [] d .root hpath
  rw [heq] at hsite
  rcases site_token hsite with rfl | hf
  · rw [path?_token] at hnone
    cases hnone
  · rw [hleaf] at hf
    cases hf

end Encoded

namespace Heap

/-! ## Where the walk comes to -/

/-- The stop at the end of a walk that takes a position in each container. -/
def trace (k : Heap X) : Value X → Trail → List Nat → Option (Stop X)
  | v, trail, [] => some (trail, v)
  | .node r, trail, i :: path =>
      (k.view r).slots[i]?.bind fun slot => trace k slot.2 (slot.1 :: trail) path
  | _, _, _ :: _ => none

section Trace

variable {k : Heap X} {t v : Value X} {trail : Trail} {tour : List (Stop X)}

theorem trace_append (k : Heap X) (v : Value X) (trail : Trail) (path path' : List Nat) :
    k.trace v trail (path ++ path') =
      (k.trace v trail path).bind fun stop => k.trace stop.2 stop.1 path' := by
  induction path generalizing v trail with
  | nil => simp [trace]
  | cons i path ih =>
    cases v with
    | node r => simp [trace, ih, Option.bind_assoc]
    | _ => simp [trace]

theorem follow_eq_trace (k : Heap X) (v : Value X) (trail : Trail) (path : List Nat) :
    k.follow v path = (k.trace v trail path).map Prod.snd := by
  induction path generalizing v trail with
  | nil => simp [follow, trace]
  | cons i path ih =>
    cases v with
    | node r =>
      simp only [follow, trace, ← View.slots_snd, List.getElem?_map, Option.bind_map,
        Option.map_bind, Function.comp_def]
      congr 1
      funext slot
      exact ih slot.2 (slot.1 :: trail)
    | _ => simp [follow, trace]

/-- The walk comes to no stop but those at the ends of walks by positions. -/
theorem Tours.exists_trace (T : k.Tours [] [([], t)] tour) (hstop : (trail, v) ∈ tour) :
    ∃ path, k.trace t [] path = some (trail, v) := by
  induction trail generalizing v with
  | nil =>
    rcases T.origin hstop with hroot | ⟨r, first, _, _, hin⟩
    · obtain ⟨_, rfl⟩ := Prod.mk.inj (List.mem_singleton.1 hroot)
      exact ⟨[], rfl⟩
    · obtain ⟨slot, _, heq⟩ := List.mem_map.1 hin
      cases (Prod.mk.inj heq).1
  | cons step trail ih =>
    rcases T.origin hstop with hroot | ⟨r, first, _, hfirst, hin⟩
    · cases (Prod.mk.inj (List.mem_singleton.1 hroot)).1
    · obtain ⟨slot, hslot, heq⟩ := List.mem_map.1 hin
      cases heq
      obtain ⟨path, hpath⟩ := ih (mem_of_firstVisit? hfirst)
      obtain ⟨i, hi⟩ := List.getElem?_of_mem hslot
      refine ⟨path ++ [i], ?_⟩
      rw [trace_append, hpath]
      simp [trace, hi]

/-- The walk of a tree comes to each container at one position. -/
theorem Rooted.alone {low high : Nat} (hk : k.Rooted 0 low high t)
    (T : k.Tours [] [([], t)] tour) {a b : Trail} {r : Ref} (ha : (a, .node r) ∈ tour)
    (hb : (b, .node r) ∈ tour) : a = b := by
  obtain ⟨path, hpath⟩ := T.exists_trace ha
  obtain ⟨path', hpath'⟩ := T.exists_trace hb
  have hfollow := follow_eq_trace k t [] path
  have hfollow' := follow_eq_trace k t [] path'
  rw [hpath] at hfollow
  rw [hpath'] at hfollow'
  obtain rfl := hk.once (Nat.zero_le r) hfollow hfollow'
  exact congrArg Prod.fst (Option.some.inj (hpath.symm.trans hpath'))

end Trace

/-! ## A graph that is the tree of a document -/

section Unfolds

variable {k : Heap X} {t v : Value X} {d e : Encoded X} {trail : Trail} {tour : List (Stop X)}

/-- Entries and fields of the same names are related if their values are. -/
private theorem forall₂_fields {entries : List (String × Value X)}
    {fields : List (String × Encoded X)} (hkeys : entries.map Prod.fst = fields.map Prod.fst)
    (h : List.Forall₂ k.Unfolds (entries.map Prod.snd) (fields.map Prod.snd)) :
    List.Forall₂ (fun entry field => field.1 = entry.1 ∧ k.Unfolds entry.2 field.2) entries
      fields := by
  have hfields : fields = (entries.map Prod.fst).zip (fields.map Prod.snd) :=
    List.zip_of_prod hkeys.symm rfl
  rw [hfields]
  exact forall₂_zip h

/-- A container is unfolded slot by slot. -/
theorem Unfolds.slots {r : Ref} (h : k.Unfolds (.node r) e) :
    List.Forall₂ (fun slot part => slot.1 = part.1 ∧ k.Unfolds slot.2 part.2)
      (k.view r).slots e.slots := by
  unfold view
  cases h with
  | leaf hv => cases hv
  | array hcell hdocs =>
    rw [hcell]
    exact forall₂_ofIndex hdocs 0
  | object hcell hkeys hdocs =>
    rw [hcell]
    refine List.forall₂_map_left_iff.2 (List.forall₂_map_right_iff.2 ?_)
    exact (forall₂_fields hkeys hdocs).imp fun entry field h => ⟨congrArg Step.key h.1.symm, h.2⟩

theorem Unfolds.holds {r : Ref} (h : k.Unfolds (.node r) e) :
    ∃ c, k.cell? r = some c ∧ c.Holds (k.view r) := by
  unfold view
  cases h with
  | leaf hv => cases hv
  | array hcell _ => exact ⟨_, hcell, by rw [hcell]; exact .array _⟩
  | object hcell _ _ => exact ⟨_, hcell, by rw [hcell]; exact .object _⟩

/-- What has parts in a document is a container in the graph. -/
theorem Unfolds.eq_node (h : k.Unfolds v e) (hleaf : e.isLeaf = false) : ∃ r, v = .node r := by
  cases h with
  | leaf _ => cases hleaf
  | array _ _ => exact ⟨_, rfl⟩
  | object _ _ _ => exact ⟨_, rfl⟩

/-- A document has parts if it has slots. -/
private theorem isLeaf_of_mem_slots {slot : Step × Encoded X} (h : slot ∈ e.slots) :
    e.isLeaf = false := by
  cases e with
  | leaf _ => cases h
  | _ => rfl

/-- Where something stands in a tree the walk comes to it. -/
theorem Unfolds.stop_of_site (h : k.Unfolds t d) (T : k.Tours [] [([], t)] tour)
    (halone : ∀ a b r, (a, .node r) ∈ tour → (b, .node r) ∈ tour → a = b)
    (hsite : d.Site trail e) : ∃ v, (trail, v) ∈ tour ∧ k.Unfolds v e := by
  induction hsite with
  | root => exact ⟨t, T.subset List.mem_cons_self, h⟩
  | @slot trail step e e' _ hslot ih =>
    obtain ⟨v, hstop, hv⟩ := ih
    obtain ⟨r, rfl⟩ := hv.eq_node (isLeaf_of_mem_slots hslot)
    obtain ⟨⟨step', u⟩, hmem, heq, hu⟩ := exists_mem_of_forall₂ hv.slots _ hslot
    obtain rfl : step' = step := heq
    obtain ⟨first, hfirst⟩ := exists_firstVisit? hstop
    obtain rfl := halone _ _ _ (mem_of_firstVisit? hfirst) hstop
    exact ⟨u, T.inside_subset List.not_mem_nil hfirst (List.mem_map_of_mem hmem), hu⟩

/-- What the walk comes to stands in the tree. -/
theorem Unfolds.site_of_stop (h : k.Unfolds t d) (T : k.Tours [] [([], t)] tour)
    (hstop : (trail, v) ∈ tour) : ∃ e, d.Site trail e ∧ k.Unfolds v e := by
  induction trail generalizing v with
  | nil =>
    rcases T.origin hstop with hroot | ⟨r, first, _, _, hin⟩
    · obtain ⟨_, rfl⟩ := Prod.mk.inj (List.mem_singleton.1 hroot)
      exact ⟨d, .root, h⟩
    · obtain ⟨slot, _, heq⟩ := List.mem_map.1 hin
      cases (Prod.mk.inj heq).1
  | cons step trail ih =>
    rcases T.origin hstop with hroot | ⟨r, first, _, hfirst, hin⟩
    · cases (Prod.mk.inj (List.mem_singleton.1 hroot)).1
    · obtain ⟨slot, hslot, heq⟩ := List.mem_map.1 hin
      cases heq
      obtain ⟨e, hsite, he⟩ := ih (mem_of_firstVisit? hfirst)
      obtain ⟨⟨step', e'⟩, hmem, heq, he'⟩ := exists_mem_of_forall₂ he.slots.flip _ hslot
      obtain rfl : slot.1 = step' := heq
      exact ⟨e', .slot hsite hmem, he'⟩

/-- A property of an object unfolds to the field of its name. -/
theorem Unfolds.get? (h : k.Unfolds v e) (key : String) :
    Option.Rel k.Unfolds (k.get? v key) (e.get? key) := by
  cases h with
  | leaf hv =>
    have hnone : k.get? v key = none := by cases v <;> first | rfl | cases hv
    rw [hnone]
    exact .none
  | @array r _ _ hcell _ =>
    have hnone : k.get? (.node r) key = none := by simp [Heap.get?, content?, hcell]
    rw [hnone]
    exact .none
  | @object r table fields hcell hkeys hdocs =>
    have hget : k.get? (.node r) key = table.get? key := by simp [Heap.get?, content?, hcell]
    rw [hget]
    exact rel_find?_of_forall₂ (forall₂_fields hkeys hdocs) key

/-- A value has the path under `$ref` that the document has. -/
theorem Unfolds.tokenPath?_map (h : k.Unfolds v e) :
    (k.tokenPath? v).map Prod.snd = Encoded.path? e := by
  have hrel := h.get? refKey
  unfold tokenPath? refPath? Encoded.path?
  generalize k.get? v refKey = found at hrel
  generalize e.get? refKey = field at hrel
  cases hrel with
  | none => rfl
  | @some u f hu =>
    cases hu with
    | @leaf u hleaf =>
      cases u with
      | string text => cases hparse : Path.parse? text <;> simp [Value.string?, hparse]
      | _ => rfl
    | array _ _ => rfl
    | object _ _ _ => rfl

/-- A value is a token exactly if it is one in the document. -/
theorem Unfolds.tokenPath?_eq_none_iff (h : k.Unfolds v e) :
    k.tokenPath? v = none ↔ Encoded.path? e = none := by
  rw [← h.tokenPath?_map, Option.map_eq_none_iff]

/-- A token in the document is the container of a token. -/
theorem Unfolds.content?_token {first : Trail} (h : k.Unfolds v (Encoded.token first.reverse)) :
    k.content? v = some (tokenCell first) := by
  cases h with
  | @object r table _ hcell hkeys hdocs =>
    rw [content?, hcell, tokenCell]
    congr 2
    refine Table.eq_of_entries ?_
    have hfields := forall₂_fields hkeys hdocs
    generalize table.entries = entries at hfields
    cases hfields with
    | @cons entry _ _ _ hentry hrest =>
      cases hrest
      obtain ⟨key, u⟩ := entry
      obtain ⟨hkey, hu⟩ := hentry
      cases hu with
      | leaf _ => rw [← (show refKey = key from hkey)]; rfl

end Unfolds

/-! ## Planted documents -/

section Plant

variable {d : Encoded X}

/-- A planted document is legible. -/
theorem legible_plant (hd : d.Tidy fun v => v.isContainer = false ∧ v.exempt? = none)
    (href : d.Referring) (k : Heap X) {tour : List (Stop X)}
    (T : (plant d k).2.Tours [] [([], (plant d k).1)] tour) :
    (plant d k).2.Legible (plant d k).1 tour := by
  have hold : (plant d k).2.Sealed (· < 0) := fun r hr => absurd hr (Nat.not_lt_zero r)
  have hunfolds := unfolds_plant (hd.imp fun v hv => hv.1) k (.refl _)
  have hrooted := rooted_plant hold
    (hd.imp fun v hv r hr => by rw [hr] at hv; cases hv.1) k (.refl _)
  have halone : ∀ a b r, (a, .node r) ∈ tour → (b, .node r) ∈ tour → a = b :=
    fun a b r ha hb => hrooted.alone T ha hb
  refine ⟨T, halone, fun trail r hstop => ?_, fun trail v hstop => ?_,
    fun trail v hstop htoken => ?_⟩
  · obtain ⟨e, _, he⟩ := hunfolds.site_of_stop T hstop
    exact he.holds
  · obtain ⟨e, hsite, he⟩ := hunfolds.site_of_stop T hstop
    cases he with
    | leaf _ =>
      cases hd.site hsite with
      | leaf hv => exact hv.2
    | array _ _ => rfl
    | object _ _ _ => rfl
  · obtain ⟨e, hsite, he⟩ := hunfolds.site_of_stop T hstop
    rw [Ne, he.tokenPath?_eq_none_iff] at htoken
    obtain ⟨first, f, hfirst, hleaf, hnone, rfl⟩ := href trail e hsite htoken
    obtain ⟨u, hu, hf⟩ := hunfolds.stop_of_site T halone hfirst
    obtain ⟨q, rfl⟩ := hf.eq_node hleaf
    exact ⟨first, .node q, hu, rfl, hf.tokenPath?_eq_none_iff.2 hnone, he.content?_token⟩

/-- A document in which no array or object lies too deep decodes where it is planted, and
then nothing passes for a token. -/
theorem decode_plant (hd : d.Tidy fun v => v.isContainer = false ∧ v.exempt? = none)
    (href : d.Referring) {limit : UInt32}
    (hshallow : ∀ trail e, d.Site trail e → e.isLeaf = false → trail.length < limit.toNat)
    (k : Heap X) :
    ∃ k', (plant d k).2.decode limit (plant d k).1 = (.ok (), k') ∧
      k'.tokenPath? (plant d k).1 = none ∧
      ∀ r, k'.Reaches (plant d k).1 r → ∀ v ∈ (k'.view r).values, k'.tokenPath? v = none := by
  obtain ⟨tour, T⟩ := exists_tours (plant d k).2 [] [([], (plant d k).1)]
  have hunfolds := unfolds_plant (hd.imp fun v hv => hv.1) k (.refl _)
  have C := legible_plant hd href k T
  generalize plant d k = planted at T hunfolds C ⊢
  obtain ⟨t, k⟩ := planted
  simp only at T hunfolds C ⊢
  cases ht : t.isContainer with
  | false =>
    have hrun : k.decode limit t = (.ok (), k) := by
      unfold decode
      rw [run_decodeAt_leaf ht (C.plain _ _ (T.subset List.mem_cons_self))]
    refine ⟨k, hrun, tokenPath?_leaf ht, fun r hr => ?_⟩
    exfalso
    induction hr with
    | root heq =>
      rw [heq] at ht
      cases ht
    | step _ _ ih => exact ih
  | true =>
    obtain ⟨r, rfl⟩ := Value.exists_eq_node ht
    have hroot : (⟨r, [], r⟩ : Place) ∈ k.spots tour :=
      mem_spots.2 ⟨rfl, T.subset List.mem_cons_self,
        hunfolds.tokenPath?_eq_none_iff.2 href.path?_eq_none⟩
    rcases C.decode_cases limit hroot rfl with ⟨k', hrun, hviews⟩ | ⟨_, _, p, hp, hdeep⟩
    · have hfree := C.tokenPath?_decoded (fun p hp => (hviews p hp).1) hroot rfl
      exact ⟨k', hrun, (hfree r (.root rfl)).1, fun s hs => (hfree s hs).2⟩
    · obtain ⟨e, hsite, he⟩ := hunfolds.site_of_stop T (mem_spots.1 hp).2.1
      have hleaf : e.isLeaf = false := by
        cases he with
        | leaf hv => cases hv
        | array _ _ => rfl
        | object _ _ _ => rfl
      exact absurd (hshallow _ e hsite hleaf) (Nat.not_lt_of_le hdeep)

end Plant

end Heap

end TypeDescription
