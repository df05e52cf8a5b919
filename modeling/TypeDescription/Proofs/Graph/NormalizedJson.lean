import TypeDescription.Proofs.Graph.Bisimilarity
import TypeDescription.Proofs.Graph.Coercion
import TypeDescription.Proofs.Graph.Interchange
import TypeDescription.Proofs.Graph.Normalization
import TypeDescription.Proofs.Literal.Written

/-!
# Writing and normalizing

Where keys of a map have one name, the normalized object has the last value only.  The writer goes
through all entries of the map: it fails where one of them cannot be written, and an undefined one
does not replace those before it.

`toJson_normalize` says that apart from that a graph and its normalized form are written as the same
JSON or both fail; if no map has two keys of one name, then with one error.  `toJson_ditto` is a map
whose last entry of a name is undefined.

The writer tells two graphs apart by their views only (`toJsonAt_congr`).  Normalizing renames
containers and leaves the latest field of each name (`Copied.view_copyOf`), and what exempt values
mark is as it was before (`Within.view_eq`).
-/

namespace TypeDescription

variable {X : Type}

namespace Heap

/-! ## Graphs of equal views are written alike -/

section Congr

variable {h k : Heap X} {v w : Value X}

theorem viewToJson_mapValues {child child' : Value X → Except CodecError (Option Json)}
    {g : Value X → Value X} {view : View X} (heq : ∀ u ∈ view.values, child' (g u) = child u) :
    viewToJson child' (view.mapValues g) = viewToJson child view := by
  cases view with
  | list items =>
    simp only [viewToJson, View.mapValues, List.mapM_map]
    congr 1
    exact mapM_congr heq
  | named fields =>
    simp only [viewToJson, View.mapValues, List.mapM_map]
    congr 1
    refine mapM_congr fun field hfield => ?_
    simp only [Function.comp_apply, heq field.2 (List.mem_map_of_mem hfield)]

/-- Two values are written alike if they are related by a relation that, where it does not relate
what is written alike anyway, relates containers whose values it relates one by one. -/
theorem toJsonAt_congr {limit : UInt32} {R : Value X → Value X → Prop}
    (hR : ∀ v w, R v w → (∀ room, k.toJsonAt limit room w = h.toJsonAt limit room v) ∨
      ∃ r q g, v.unwrap = .node r ∧ w.unwrap = .node q ∧ k.view q = (h.view r).mapValues g ∧
        ∀ u ∈ (h.view r).values, R u (g u))
    (room : Nat) (hvw : R v w) : k.toJsonAt limit room w = h.toJsonAt limit room v := by
  induction room generalizing v w with
  | zero =>
    rcases hR v w hvw with halike | ⟨r, q, g, hv, hw, _⟩
    · exact halike 0
    · rw [← toJsonAt_unwrap k, ← toJsonAt_unwrap h, hv, hw, toJsonAt_deep, toJsonAt_deep]
  | succ room ih =>
    rcases hR v w hvw with halike | ⟨r, q, g, hv, hw, hview, hinside⟩
    · exact halike (room + 1)
    · rw [← toJsonAt_unwrap k, ← toJsonAt_unwrap h, hv, hw, toJsonAt_enter, toJsonAt_enter, hview,
        viewToJson_mapValues fun u hu => ih (hinside u hu)]

end Congr

/-! ## Containers that were there before -/

section Within

variable {h k : Heap X} {v : Value X} {r : Ref}

theorem Below.unwrap {x : Value X} (hv : h.Below x v) : h.Below x v.unwrap := by
  induction v with
  | exempt inner ih => exact ih (.marked hv)
  | _ => exact hv

/-- What a walk sees in a container is below it. -/
theorem Below.values {x w : Value X} (hr : h.Below x (.node r)) (hw : w ∈ (h.view r).values) :
    h.Below x w := by
  rw [values_view, slots] at hw
  cases hcell : h.cell? r with
  | none => simp [hcell] at hw
  | some c =>
    refine .content hr hcell ?_
    rw [hcell] at hw
    cases c with
    | map entries =>
      obtain ⟨entry, hentry, rfl⟩ := List.mem_map.1 hw
      exact List.mem_flatMap.2 ⟨entry, hentry, by simp⟩
    | _ => exact hw

/-- All containers at and below a value are there, map keys and what exempt values mark among
them. -/
def Whole (h : Heap X) (v : Value X) : Prop :=
  ∀ r, h.Below v (.node r) → r < h.size

theorem Whole.below {w : Value X} (hv : h.Whole v) (hw : h.Below v w) : h.Whole w :=
  fun r hr => hv r (hw.trans hr)

theorem Whole.contents {c : Cell X} {w : Value X} (hv : h.Whole (.node r))
    (hcell : h.cell? r = some c) (hw : w ∈ c.contents) : h.Whole w :=
  hv.below (.content .root hcell hw)

theorem Whole.unwrap (hv : h.Whole v) : h.Whole v.unwrap :=
  hv.below Below.root.unwrap

theorem Whole.values {w : Value X} (hv : h.Whole (.node r)) (hw : w ∈ (h.view r).values) :
    h.Whole w :=
  hv.below (Below.root.values hw)

theorem Whole.joined {items : List (Value X)} {w : Value X} (hv : h.Whole (.node r))
    (hitems : h.joined? r = some items) (hw : w ∈ items) : h.Whole w := by
  unfold joined? at hitems
  cases hcell : h.cell? r with
  | none => simp [hcell] at hitems
  | some c =>
    rw [hcell] at hitems
    cases c with
    | array items' =>
      obtain rfl := Option.some.inj hitems
      exact hv.contents hcell hw
    | set items' =>
      obtain rfl := Option.some.inj hitems
      exact hv.contents hcell hw
    | _ => cases hitems

/-- The text of a key stays. -/
theorem Within.keyText_eq (hk : h.Within k) (hv : h.Whole v) (room : Nat) (joining : List Ref) :
    k.keyText room joining v = h.keyText room joining v := by
  induction room generalizing joining v with
  | zero =>
    cases v with
    | node r =>
      have hcell := hk.cell?_eq r (hv r .root)
      unfold keyText joined?
      rw [hcell]
    | _ => unfold keyText; rfl
  | succ room ih =>
    cases v with
    | exempt inner =>
      unfold keyText
      exact ih (hv.below (.marked .root)) joining
    | node r =>
      have hjoined : k.joined? r = h.joined? r := by
        unfold joined?
        rw [hk.cell?_eq r (hv r .root)]
      simp only [keyText, hjoined]
      cases hitems : h.joined? r with
      | none => rfl
      | some items =>
        refine ite_congr rfl (fun _ => rfl) fun _ => congrArg (",".intercalate ·) ?_
        refine List.map_congr_left fun item hitem => ?_
        have heq := ih (hv.joined hitems hitem) (r :: joining)
        cases item <;> first | rfl | exact heq
    | _ => unfold keyText; rfl

theorem Within.view_eq (hk : h.Within k) (hr : h.Whole (.node r)) : k.view r = h.view r := by
  have hcell := hk.cell?_eq r (hr r .root)
  unfold view
  rw [hcell]
  cases hc : h.cell? r with
  | none => rfl
  | some c =>
    cases c with
    | map entries =>
      simp only [viewCell, View.named.injEq]
      refine List.map_congr_left fun entry hentry => ?_
      have hkey := hr.contents hc (List.mem_flatMap.2 ⟨entry, hentry, List.mem_cons_self⟩)
      rw [propertyKey_eq, propertyKey_eq, hk.keyText_eq hkey]
    | _ => rfl

end Within

/-! ## Repeated names -/

section Repeated

variable {h : Heap X} {limit : UInt32} {room : Nat} {v x : Value X} {json : Option Json}

/-- Nothing is written of an undefined value, and of no other that can be written. -/
theorem isSome_of_toJsonAt (hok : h.toJsonAt limit room v = .ok json) :
    json.isSome = v.isDefined := by
  rw [← toJsonAt_unwrap] at hok
  have hplain := v.exempt?_unwrap
  unfold Value.isDefined
  generalize v.unwrap = w at hok hplain ⊢
  cases w with
  | node r =>
    obtain ⟨_, _, _, _, rfl⟩ := toJsonAt_node hok
    rfl
  | exempt inner => cases hplain
  | bigInt _ => cases room <;> cases hok
  | foreign _ => cases room <;> cases hok
  | _ => cases room <;> (cases hok; rfl)

/-- The fields of one name in a container below the root are all undefined or none of them is. -/
def Concordant (h : Heap X) (x : Value X) : Prop :=
  ∀ r fields, h.Reaches x r → h.view r = .named fields → ∀ field ∈ fields, ∀ other ∈ fields,
    field.1 = other.1 → field.2.isDefined = other.2.isDefined

/-- A field of a container below the root that has another one of the same name behind it. -/
def Overwritten (h : Heap X) (x u : Value X) : Prop :=
  ∃ r before name after, h.Reaches x r ∧ h.view r = .named (before ++ (name, u) :: after) ∧
    name ∈ after.map Prod.fst

/-- A value of a container is one of the latest fields or overwritten. -/
theorem mem_latest_or_overwritten {r : Ref} {u : Value X} (hr : h.Reaches x r)
    (hu : u ∈ (h.view r).values) : u ∈ (h.view r).latest.values ∨ h.Overwritten x u := by
  cases hview : h.view r with
  | list items => exact .inl (by rwa [hview] at hu)
  | named fields =>
    rw [hview] at hu
    obtain ⟨⟨name, u⟩, hfield, rfl⟩ := List.mem_map.1 hu
    obtain ⟨before, after, rfl⟩ := List.append_of_mem hfield
    by_cases hlater : name ∈ after.map Prod.fst
    · exact .inr ⟨r, before, name, after, hr, hview, hlater⟩
    · have hnone : after.reverse.find? (fun entry => entry.1 == name) = none := by
        rw [List.find?_eq_none]
        intro entry hentry heq
        exact hlater (List.mem_map.2 ⟨entry, List.mem_reverse.1 hentry, by simpa using heq⟩)
      have hlast : (Table.ofList (before ++ (name, u) :: after)).get? name = some u := by
        rw [Table.get?_ofList, List.reverse_append, List.reverse_cons, List.append_assoc,
          List.find?_append, hnone]
        simp
      exact .inl (Table.mem_values_of_get? hlast)

/-- Fields that are all written make an object of what is there of them. -/
theorem viewToJson_named {child : Value X → Except CodecError (Option Json)}
    {form : Value X → Option Json} {fields : List (String × Value X)}
    (hchild : ∀ field ∈ fields, child field.2 = .ok (form field.2)) :
    viewToJson child (.named fields) = .ok (.ofFields
      ((fields.map fun field => (field.1, form field.2)).filterMap Table.present)) := by
  have hfields : (fields.mapM fun field => do
      let item ← child field.2
      return (field.1, item)) =
        (pure (fields.map fun field => (field.1, form field.2)) : Except CodecError _) := by
    rw [← List.mapM_pure]
    refine mapM_congr fun field hfield => ?_
    rw [hchild field hfield]
    rfl
  show (fields.mapM _ >>= _) = _
  rw [hfields]
  rfl

/-- If all fields of a container can be written and those of one name are undefined or not, then
the latest ones are written alike. -/
theorem viewToJson_latest {r : Ref} {json : Json} (hx : h.Concordant x) (hr : h.Reaches x r)
    (hok : viewToJson (h.toJsonAt limit room) (h.view r) = .ok json) :
    viewToJson (h.toJsonAt limit room) (h.view r).latest = .ok json := by
  cases hview : h.view r with
  | list items => rwa [hview] at hok
  | named fields =>
    rw [hview] at hok
    obtain ⟨form, hform⟩ : ∃ form : Value X → Option Json,
        ∀ field ∈ fields, h.toJsonAt limit room field.2 = .ok (form field.2) := by
      refine ⟨fun u => (h.toJsonAt limit room u).toOption.join, fun field hfield => ?_⟩
      obtain ⟨_, hwritten⟩ := viewToJson_eq_ok hok field.2 (List.mem_map_of_mem hfield)
      simp only [hwritten]
      rfl
    have hsame : ∀ entry ∈ fields.map fun field => (field.1, form field.2),
        ∀ other ∈ fields.map fun field => (field.1, form field.2), entry.1 = other.1 →
          entry.2.isSome = other.2.isSome := by
      intro entry hentry other hother hname
      obtain ⟨field, hfield, rfl⟩ := List.mem_map.1 hentry
      obtain ⟨field', hfield', rfl⟩ := List.mem_map.1 hother
      show (form field.2).isSome = (form field'.2).isSome
      rw [isSome_of_toJsonAt (hform field hfield), isSome_of_toJsonAt (hform field' hfield')]
      exact hx r fields hr hview field hfield field' hfield' hname
    have hlatest : ∀ field ∈ (Table.ofList fields).entries,
        h.toJsonAt limit room field.2 = .ok (form field.2) := fun field hfield =>
      hform field (Table.entries_ofList_subset fields hfield)
    have hentries := Table.entries_ofList_filterMap hsame
    rw [Table.ofList_map] at hentries
    rw [View.latest, viewToJson_named hlatest]
    rw [viewToJson_named hform, Document.ofFields_eq, hentries] at hok
    rw [← hok, Document.ofFields_of_nodup]
    · rfl
    · show (((Table.map form (Table.ofList fields)).entries.filterMap Table.present).map
        Prod.fst).Nodup
      rw [← hentries]
      exact (Table.ofList _).keys_nodup

end Repeated

/-! ## Normalized graphs -/

section Normalized

variable {h k : Heap X} {limit : UInt32} {room : Nat} {v w x y : Value X} {json : Option Json}
  {added : List (Ref × Ref)} {s : Copying X}

/-- What normalizing leaves is a heap with copies of all containers below the root. -/
theorem copied_of_normalize (hok : h.normalize x = .ok (y, k)) :
    ∃ s added, s.heap = k ∧ h.Copied ⟨h, []⟩ added s ∧ (s.done.map Prod.fst).Nodup ∧
      Copies s.done x y := by
  simp only [normalize] at hok
  generalize DepthProfile.codec.limit = limit at hok
  have halong := copyAt_alongside h limit limit.toNat [] x [] ⟨h, []⟩ rfl
  generalize (h.copyAt limit limit.toNat x).run ⟨h, []⟩ = copying at halong hok
  generalize (h.encodeAt limit limit.toNat [] x).run [] = encoding at halong
  cases halong with
  | error => cases hok
  | @ok e y' seen added s _ c hy =>
    obtain ⟨rfl, rfl⟩ := Prod.mk.inj (Except.ok.inj hok)
    exact ⟨s, added, rfl, c, c.sources_nodup List.nodup_nil, hy⟩

/-- Values that were there before are written as before. -/
theorem Within.toJsonAt_eq (hk : h.Within k) (hv : h.Whole v) (room : Nat) :
    k.toJsonAt limit room v = h.toJsonAt limit room v := by
  refine toJsonAt_congr (R := fun u w => h.Whole u ∧ w = u) ?_ room ⟨hv, rfl⟩
  intro u w huw
  obtain ⟨hu, rfl⟩ := huw
  cases hnode : w.unwrap with
  | node r =>
    have hr : h.Whole (.node r) := hnode ▸ hu.unwrap
    refine .inr ⟨r, r, id, rfl, rfl, ?_, fun u hmem => ⟨hr.values hmem, rfl⟩⟩
    rw [hk.view_eq hr, View.mapValues_id]
  | _ => exact .inl (toJsonAt_scalar (by rw [hnode]; rfl) h k limit)

/-- A value and the copy of it, or what was there before and stays. -/
inductive Kept (h : Heap X) (x : Value X) (f : Ref → Ref) : Value X → Value X → Prop
  | same {v : Value X} : h.Whole v → Kept h x f v v
  | copy {r : Ref} : h.Whole (.node r) → h.Reaches x r → Kept h x f (.node r) (.node (f r))

theorem Kept.relabel {f : Ref → Ref} {v : Value X} (hv : h.Whole v)
    (hreach : ∀ r, v = .node r → h.Reaches x r) : h.Kept x f v (v.relabel f) := by
  cases hu : v.isContainer with
  | false =>
    rw [Value.relabel_of_leaf _ hu]
    exact .same hv
  | true =>
    obtain ⟨r, rfl⟩ := Value.exists_eq_node hu
    exact .copy hv (hreach r rfl)

theorem Kept.values {f : Ref → Ref} {r : Ref} {u : Value X} (hr : h.Whole (.node r))
    (hreach : h.Reaches x r) (hu : u ∈ (h.view r).values) : h.Kept x f u (u.relabel f) :=
  .relabel (hr.values hu) fun _ hq => .step hreach (hq ▸ hu)

/-- The copy of what is written is written alike. -/
theorem Copied.toJsonAt_eq_ok (c : h.Copied ⟨h, []⟩ added s) (hnodup : (s.done.map Prod.fst).Nodup)
    (hy : Copies s.done x y) (hx : h.Concordant x) (hvw : h.Kept x (copyOf s) v w)
    (hok : h.toJsonAt limit room v = .ok json) : s.heap.toJsonAt limit room w = .ok json := by
  induction room generalizing v w json with
  | zero =>
    cases hvw with
    | same hv => rwa [c.within.toJsonAt_eq hv]
    | copy _ _ => cases hok
  | succ room ih =>
    cases hvw with
    | same hv => rwa [c.within.toJsonAt_eq hv]
    | @copy r hr hreach =>
      obtain ⟨_, _, hroom, hview, rfl⟩ := toJsonAt_node hok
      obtain rfl := Nat.succ.inj hroom
      have hvalues : ∀ u ∈ (h.view r).latest.values,
          s.heap.toJsonAt limit room (u.relabel (copyOf s)) = h.toJsonAt limit room u := by
        intro u hu
        have hmem := View.values_latest_subset _ hu
        obtain ⟨_, hu⟩ := viewToJson_eq_ok hview u hmem
        rw [hu, ih (.values hr hreach hmem) hu]
      rw [toJsonAt_enter, c.view_copyOf hnodup hy hreach, viewToJson_mapValues hvalues,
        viewToJson_latest hx hreach hview]
      rfl

/-- If the copy of a value is written and the value is not, then an overwritten value is not. -/
theorem Copied.toJsonAt_eq_error {e : CodecError} (c : h.Copied ⟨h, []⟩ added s)
    (hnodup : (s.done.map Prod.fst).Nodup) (hy : Copies s.done x y)
    (hvw : h.Kept x (copyOf s) v w) (hok : s.heap.toJsonAt limit room w = .ok json)
    (herror : h.toJsonAt limit room v = .error e) :
    ∃ u, ∃ left < room, h.Overwritten x u ∧ h.toJsonAt limit left u = .error e := by
  induction room generalizing v w json with
  | zero =>
    cases hvw with
    | same hv => simp [c.within.toJsonAt_eq hv, herror] at hok
    | copy _ _ => cases hok
  | succ room ih =>
    cases hvw with
    | same hv => simp [c.within.toJsonAt_eq hv, herror] at hok
    | @copy r hr hreach =>
      rw [toJsonAt_enter, bind_eq_error] at herror
      rcases herror with herror | ⟨_, _, herror⟩
      · obtain ⟨u, hu, herror⟩ := viewToJson_eq_error herror
        rcases mem_latest_or_overwritten hreach hu with hlatest | hover
        · obtain ⟨_, _, hroom, hview, _⟩ := toJsonAt_node hok
          obtain rfl := Nat.succ.inj hroom
          rw [c.view_copyOf hnodup hy hreach] at hview
          obtain ⟨_, hcopy⟩ := viewToJson_eq_ok hview (u.relabel (copyOf s)) (by
            rw [View.values_mapValues]
            exact List.mem_map_of_mem hlatest)
          obtain ⟨u', left, hleft, hfound⟩ := ih (.values hr hreach hu) hcopy herror
          exact ⟨u', left, Nat.lt_succ_of_lt hleft, hfound⟩
        · exact ⟨u, room, Nat.lt_succ_self _, hover, herror⟩
      · cases herror

/-- The copies of a graph without repeated names are written alike, errors included. -/
theorem Copied.toJsonAt_eq (c : h.Copied ⟨h, []⟩ added s) (hnodup : (s.done.map Prod.fst).Nodup)
    (hy : Copies s.done x y) (hx : h.DistinctKeys x) (hvw : h.Kept x (copyOf s) v w) :
    s.heap.toJsonAt limit room w = h.toJsonAt limit room v := by
  refine toJsonAt_congr (fun v w hvw => ?_) room hvw
  cases hvw with
  | same hv => exact .inl (c.within.toJsonAt_eq hv)
  | @copy r hr hreach =>
    refine .inr ⟨r, copyOf s r, .relabel (copyOf s), rfl, rfl, ?_, fun u hmem =>
      .values hr hreach hmem⟩
    rw [c.view_copyOf hnodup hy hreach, View.latest_of_nodup (hx.names_nodup hreach)]

/-- A graph whose containers are all there, and its normalized form.  If the fields of one name
are undefined or not, then they are written as the same JSON or both fail, unless a value that a
later one of its name replaces cannot be written.  If there are no two fields of one name, then they
are written alike within any limit, or fail with one error. -/
theorem toJson_normalize (hx : h.Whole x) (hok : h.normalize x = .ok (y, k)) (limit : UInt32) :
    (h.Concordant x →
      (∀ json, h.toJson limit x = .ok json → k.toJson limit y = .ok json) ∧
      ∀ json, k.toJson limit y = .ok json → h.toJson limit x = .ok json ∨
        ∃ e u, ∃ left < limit.toNat, h.toJson limit x = .error e ∧ h.Overwritten x u ∧
          h.toJsonAt limit left u = .error e) ∧
    (h.DistinctKeys x → k.toJson limit y = h.toJson limit x) := by
  obtain ⟨s, added, rfl, c, hnodup, hy⟩ := copied_of_normalize hok
  have hkept : h.Kept x (copyOf s) x y := by
    rw [Copied.copies_eq hnodup hy]
    exact .relabel hx fun r hr => .root hr
  have hwritten : h.Concordant x → ∀ json, h.toJson limit x = .ok json →
      s.heap.toJson limit y = .ok json := by
    intro hconcordant json hjson
    obtain ⟨form, hform, hroot⟩ := bind_eq_ok.1 hjson
    exact bind_eq_ok.2 ⟨form, c.toJsonAt_eq_ok hnodup hy hconcordant hkept hform, hroot⟩
  refine ⟨fun hconcordant => ⟨hwritten hconcordant, fun json hjson => ?_⟩, fun hkeys => ?_⟩
  · cases hdirect : h.toJson limit x with
    | ok json' => exact .inl (hjson ▸ (hwritten hconcordant json' hdirect).symm)
    | error e =>
      obtain ⟨form, hform, _⟩ := bind_eq_ok.1 hjson
      obtain ⟨u, left, hleft, hover, herror⟩ :=
        c.toJsonAt_eq_error hnodup hy hkept hform (toJson_eq_error_iff.1 hdirect)
      exact .inr ⟨e, u, left, hleft, rfl, hover, herror⟩
  · unfold toJson
    rw [c.toJsonAt_eq hnodup hy hkeys hkept]

end Normalized

/-- An array that holds a map three times, once as an exempt value.  The keys of the map are a
truth value, a string and a set, and one entry is undefined. -/
def shelf (name : String) : Heap Unit :=
  ⟨#[.array [.node 1, .exempt (.node 1), .node 1],
    .map [(.bool true, .node 2), (.string name, .null), (.node 2, .undefined)],
    .set [.string "x"]]⟩

theorem toJson_normalize_shelf :
    ((shelf "true").Whole (.node 0) ∧ (shelf "true").Concordant (.node 0) ∧
      ∃ y k json, (shelf "true").normalize (.node 0) = .ok (y, k) ∧
        (shelf "true").toJson 1024 (.node 0) = .ok json ∧ k.toJson 1024 y = .ok json) ∧
    ((shelf "false").Whole (.node 0) ∧ (shelf "false").DistinctKeys (.node 0) ∧
      ∃ y k, (shelf "false").normalize (.node 0) = .ok (y, k) ∧
        k.toJson 1 y = (shelf "false").toJson 1 (.node 0)) := by
  have hwhole : ∀ name, (shelf name).Whole (.node 0) := by
    intro name r hr
    have hparts : ∀ w ∈ [.node 0, .node 1, .exempt (.node 1), .node 2, .bool true, .null,
        .undefined, .string name, .string "x"], ∀ u ∈ (shelf name).parts w,
          u ∈ [.node 0, .node 1, .exempt (.node 1), .node 2, .bool true, .null, .undefined,
            .string name, .string "x"] := by
      simp [shelf, parts, cell?, Cell.contents, Cell.slots]
    have hmem : r = 0 ∨ r = 1 ∨ r = 2 := by
      simpa using hr.mem_of_closed hparts List.mem_cons_self
    obtain rfl | rfl | rfl := hmem <;> simp [shelf, size]
  have hconcordant : (shelf "true").Concordant (.node 0) := by
    intro r fields _ hview
    rcases r with _ | _ | r
    · cases hview
    · have hfields : fields = [("true", .node 2), ("true", .null), ("x", .undefined)] := by
        rw [← View.named.injEq, ← hview]
        rfl
      subst hfields
      decide +kernel
    · rcases r with _ | r <;> simp [shelf, view, cell?, viewCell] at hview
  have hkeys : (shelf "false").DistinctKeys (.node 0) := by
    intro r entries _ hcell
    rcases r with _ | _ | _ | r <;> simp [shelf, cell?] at hcell
    subst hcell
    decide +kernel
  have hok : ∀ name ∈ ["true", "false"], ((shelf name).normalize (.node 0)).isOk = true := by
    decide +kernel
  refine ⟨⟨hwhole _, hconcordant, ?_⟩, hwhole _, hkeys, ?_⟩
  · cases hnormal : (shelf "true").normalize (.node 0) with
    | error e => simp [hnormal, Except.isOk, Except.toBool] at hok
    | ok result =>
      obtain ⟨y, k⟩ := result
      have hwritten : ((shelf "true").toJson 1024 (.node 0)).isOk = true := by decide +kernel
      cases hjson : (shelf "true").toJson 1024 (.node 0) with
      | error e => simp [hjson, Except.isOk, Except.toBool] at hwritten
      | ok json =>
        have hagree := (toJson_normalize (hwhole _) hnormal 1024).1 hconcordant
        exact ⟨y, k, json, rfl, rfl, hagree.1 json hjson⟩
  · cases hnormal : (shelf "false").normalize (.node 0) with
    | error e => simp [hnormal, Except.isOk, Except.toBool] at hok
    | ok result =>
      obtain ⟨y, k⟩ := result
      exact ⟨y, k, rfl, (toJson_normalize (hwhole _) hnormal 1).2 hkeys⟩

/-- A map with two entries of one name, the last one undefined. -/
def ditto : Heap Unit :=
  ⟨#[.map [(.string "a", .bool true), (.string "a", .undefined)]]⟩

/-- The map is written with the first of its entries, but the last one is all that the normalized
map has. -/
theorem toJson_ditto :
    (ditto.toJson 1024 (.node 0)).toOption.map Document.keys = some ["a"] ∧
      (ditto.normalize (.node 0) >>= fun y => y.2.toJson 1024 y.1).toOption.map Document.keys =
        some [] := by
  decide +kernel

end Heap

end TypeDescription
