import TypeDescription.Proofs.Graph.Comparison
import TypeDescription.Proofs.Graph.NormalizedJson
import TypeDescription.Proofs.Outcomes

/-!
# JSON of equal graphs

Values that compare equal are written as JSON that is equal but for the order of names, or neither
is written (`toJson_of_structurallyEqual`).

A comparison that says yes has looked into all pairs of containers that it took as equal, and found
what is in them equal under the same assumptions (`Grounded`).  So the two graphs are written
level by level beside each other, however the containers are shared; a cycle is written to the end
of the levels on both sides.  Objects are compared by name and maps in order.  The name of a map
entry is the text of its key, and the texts of equal keys are known to be equal for scalars only.
-/

namespace TypeDescription

variable {X : Type}

/-! ## Equal documents -/

namespace Document

variable {α : Type} {d : Document α} {fields fields' others : List (String × Document α)}

/-- Documents that are equal but for the order of the fields. -/
inductive Alike : Document α → Document α → Prop
  | leaf (value : α) : Alike (.leaf value) (.leaf value)
  | array {items items' : List (Document α)} : List.Forall₂ Alike items items' →
      Alike (.array items) (.array items')
  | object {fields fields' others : List (String × Document α)} :
      fields.map Prod.fst = others.map Prod.fst →
      List.Forall₂ Alike (fields.map Prod.snd) (others.map Prod.snd) → others.Perm fields' →
      Alike (.object fields) (.object fields')

/-- Objects with alike fields in one order are alike. -/
theorem Alike.of_fields
    (h : List.Forall₂ (fun f g => g.1 = f.1 ∧ f.2.Alike g.2) fields fields') :
    Alike (.object fields) (.object fields') := by
  refine .object ?_ ?_ (.refl _)
  · exact List.forall₂_eq_eq_eq ▸ List.forall₂_map_left_iff.2
      (List.forall₂_map_right_iff.2 (h.imp fun _ _ hfg => hfg.1.symm))
  · exact List.forall₂_map_left_iff.2 (List.forall₂_map_right_iff.2 (h.imp fun _ _ hfg => hfg.2))

/-- The order of the fields does not count. -/
theorem Alike.perm (h : d.Alike (.object fields)) (hperm : fields.Perm fields') :
    d.Alike (.object fields') := by
  cases h with
  | object hnames hvalues hperm' => exact .object hnames hvalues (hperm'.trans hperm)

theorem Alike.refl (d : Document α) : d.Alike d := by
  induction d using Document.induct with
  | leaf value => exact .leaf value
  | array items ih => exact .array (List.forall₂_same.2 ih)
  | object fields ih =>
    exact .object rfl (List.forall₂_same.2 ih) (.refl _)

/-- Alike fields that are read one by one, the last value of a repeated name counting, make alike
objects. -/
theorem Alike.ofFields (h : List.Forall₂ (fun f g => g.1 = f.1 ∧ f.2.Alike g.2) fields fields') :
    (Document.ofFields fields).Alike (Document.ofFields fields') := by
  rw [ofFields_eq, ofFields_eq]
  exact .of_fields (Table.forall₂_ofList h)

end Document

/-! ## Equal scalars -/

theorem Double.isFinite_of_isNaN {x : Double} (h : x.isNaN = true) : x.isFinite = false := by
  simp only [isNaN, Bool.and_eq_true, beq_iff_eq] at h
  simp [isFinite, h.1]

theorem Json.ofDouble_of_equals {x y : Double} (h : x.Equals y) : ofDouble x = ofDouble y := by
  have hnan : ∀ z : Double, z.isNaN = true → ofDouble z = null := by
    intro z hz
    have hfinite := Double.isFinite_of_isNaN hz
    simp [ofDouble, Double.safeInteger?, Double.integer?, hfinite]
  rcases h with rfl | ⟨hx, hy⟩ | ⟨hx, hy⟩
  · rfl
  · simp only [ofDouble, Double.safeInteger?_of_isZero hx, Double.safeInteger?_of_isZero hy]
  · rw [hnan x hx, hnan y hy]

theorem NumberStyle.text_source_of_equals {x y : Double} (h : x.Equals y) :
    source.text x = source.text y := by
  have hzero : ∀ z : Double, z.isZero = true → source.text z = "0" := by
    intro z hz
    have hexponent := ((Double.isZero_iff z).1 hz).1
    simp [text, Double.isNaN_of_isZero hz, Double.isInfinite, hexponent, hz, source]
  rcases h with rfl | ⟨hx, hy⟩ | ⟨hx, hy⟩
  · rfl
  · rw [hzero x hx, hzero y hy]
  · simp only [text, hx, hy, if_true]

theorem Primitive.keyText_of_equals {p q : Primitive} (h : p.Equals q) : p.keyText = q.keyText := by
  cases h with
  | number heq => exact NumberStyle.text_source_of_equals heq
  | _ => rfl

namespace Heap

variable {h : Heap X} {v w : Value X}

theorem toJsonAt_of_equals (heq : v.Equals w) (limit : UInt32) (room : Nat) :
    h.toJsonAt limit room v = h.toJsonAt limit room w := by
  cases heq with
  | number heq => cases room <;> simp only [toJsonAt, Value.unwrap, Json.ofDouble_of_equals heq]
  | date heq => cases room <;> simp only [toJsonAt, Value.unwrap, Json.ofDouble_of_equals heq]
  | boxed heq =>
    cases heq with
    | number heq =>
      cases room <;>
        simp only [toJsonAt, Value.unwrap, Primitive.toJson, Json.ofDouble_of_equals heq]
    | _ => rfl
  | _ => rfl

/-- Equal keys have equal texts if they are scalars behind their exempt markers. -/
theorem keyText_of_equalUnder {t : Assumed} (heq : v.EqualUnder t w)
    (hscalar : v.unwrap.isContainer = false) (room : Nat) (joining : List Ref) :
    h.keyText room joining v = h.keyText room joining w := by
  induction heq generalizing room with
  | scalar heq =>
    cases heq with
    | number heq => cases room <;> exact NumberStyle.text_source_of_equals heq
    | boxed heq => cases room <;> exact Primitive.keyText_of_equals heq
    | _ => cases room <;> rfl
  | exempt _ ih =>
    cases room with
    | zero => rfl
    | succ room => exact ih hscalar room
  | node _ => cases hscalar

/-! ## Containers -/

section Container

variable {child : Value X → Except CodecError (Option Json)} {c d : Cell X}
  {fields fields' others : List (String × Value X)}

/-- Null stands for what is not written. -/
theorem alike_getD {json json' : Option Json} (h : Option.Rel Document.Alike json json') :
    (json.getD Json.null).Alike (json'.getD Json.null) := by
  cases h with
  | none => exact .refl _
  | some halike => exact halike

/-- Two values are written alike, or neither is written. -/
def AlikeBy (child : Value X → Except CodecError (Option Json)) (v w : Value X) : Prop :=
  Concur (Option.Rel Document.Alike) (fun _ _ => True) (child v) (child w)

theorem AlikeBy.refl (child : Value X → Except CodecError (Option Json)) (v : Value X) :
    AlikeBy child v v :=
  Concur.refl
    (fun json => by
      cases json with
      | none => exact .none
      | some json => exact .some (.refl json))
    fun _ => trivial

/-- Items that are written alike one by one make alike arrays. -/
theorem concur_list {items items' : List (Value X)}
    (h : List.Forall₂ (AlikeBy child) items items') :
    Concur Document.Alike (fun _ _ => True) (viewToJson child (.list items))
      (viewToJson child (.list items')) := by
  have hitems := Concur.mapM h fun _ _ halike => halike
  refine Concur.bind hitems fun jsons jsons' hall => .ok (.array ?_)
  exact List.forall₂_map_left_iff.2 (List.forall₂_map_right_iff.2 (hall.imp fun _ _ => alike_getD))

/-- Fields that are written alike one by one make alike objects. -/
theorem concur_named
    (h : List.Forall₂ (fun e f => f.1 = e.1 ∧ AlikeBy child e.2 f.2) fields others) :
    Concur Document.Alike (fun _ _ => True) (viewToJson child (.named fields))
      (viewToJson child (.named others)) := by
  have hitems := Concur.mapM h (P := fun item other => other.1 = item.1 ∧
    Option.Rel Document.Alike item.2 other.2)
    (f := fun field => Prod.mk field.1 <$> child field.2)
    (g := fun field => Prod.mk field.1 <$> child field.2)
    fun e f hef => hef.2.map fun _ _ hab => ⟨hef.1, hab⟩
  exact Concur.bind hitems fun items others hall => .ok (.ofFields (Table.forall₂_present hall))

/-- What is written of fields stands under their names. -/
theorem names_of_mapM_ok {items : List (String × Option Json)}
    (hok : (fields.mapM fun field => Prod.mk field.1 <$> child field.2) = .ok items) :
    items.map Prod.fst = fields.map Prod.fst := by
  refine (List.forall₂_eq_eq_eq ▸ List.forall₂_map_left_iff.2 (List.forall₂_map_right_iff.2
    ((forall₂_of_mapM_ok hok).imp fun field item hitem => ?_)) : fields.map Prod.fst = _).symm
  obtain ⟨_, _, rfl⟩ := map_eq_ok.1 hitem
  rfl

/-- Fields in another order are written as the same object in another order. -/
theorem concur_perm (hperm : others.Perm fields') (hnames : (others.map Prod.fst).Nodup) :
    Concur (fun json json' => ∃ written written', json = .object written ∧
        json' = .object written' ∧ written.Perm written') (fun _ _ => True)
      (viewToJson child (.named others)) (viewToJson child (.named fields')) := by
  have hobject : ∀ items : List (String × Option Json), (items.map Prod.fst).Nodup →
      Document.ofFields (items.filterMap Table.present) = .object (items.filterMap Table.present) :=
    fun items hitems => Document.ofFields_of_nodup
      (hitems.sublist (keys_filterMap_sublist Prod.fst Prod.snd items))
  have hitems := (Concur.mapM_perm hperm
    (f := fun field => Prod.mk field.1 <$> child field.2)).with_ok
  refine Concur.bind hitems fun items items' hall => .ok ?_
  obtain ⟨hall, hok, _⟩ := hall
  have hnodup : (items.map Prod.fst).Nodup := by rwa [names_of_mapM_ok hok]
  exact ⟨_, _, hobject items hnodup,
    hobject items' ((hall.map Prod.fst).nodup_iff.1 hnodup), hall.filterMap _⟩

/-- Related containers are written alike, or neither is written. -/
theorem concur_viewCell {t : Assumed} (h : Heap X)
    (hrel : c.Related (fun v w => v.EqualUnder t w ∧ AlikeBy child v w) d)
    (hkeys : ∀ entries, c = .map entries → ∀ entry ∈ entries, entry.1.unwrap.isContainer = false) :
    Concur Document.Alike (fun _ _ => True) (viewToJson child (h.viewCell c))
      (viewToJson child (h.viewCell d)) := by
  cases hrel with
  | array hitems => exact concur_list (hitems.imp fun _ _ => And.right)
  | set hitems => exact concur_list (hitems.imp fun _ _ => And.right)
  | @object as bs hnamed =>
    -- the second object in the order of the first one is written as the first one is
    obtain ⟨others, hentries, hperm⟩ := Table.exists_perm_of_rel_get? hnamed
    have hnames : (others.map Prod.fst).Nodup := (hperm.map Prod.fst).nodup_iff.2 bs.keys_nodup
    refine (concur_named (hentries.imp fun e f hef => ⟨hef.1, hef.2.2⟩)).trans
      (concur_perm hperm hnames) (fun json json' json'' halike hothers => ?_)
      fun _ _ _ _ _ => trivial
    obtain ⟨written, written', rfl, rfl, hwritten⟩ := hothers
    exact halike.perm hwritten
  | @map as bs hentries =>
    refine concur_named (List.forall₂_map_left_iff.2 (List.forall₂_map_right_iff.2 ?_))
    refine forall₂_imp_of_mem hentries fun e he f _ hef => ⟨?_, hef.2.2⟩
    rw [propertyKey_eq, propertyKey_eq]
    exact (keyText_of_equalUnder hef.1.1 (hkeys as rfl e he) _ _).symm

end Container

/-! ## Graphs -/

/-- The keys of all maps below a value are scalars, exempt or not. -/
def ScalarKeys (h : Heap X) (x : Value X) : Prop :=
  ∀ r entries, h.Below x (.node r) → h.cell? r = some (.map entries) →
    ∀ entry ∈ entries, entry.1.unwrap.isContainer = false

theorem AlikeBy.exempt {limit : UInt32} {room : Nat}
    (halike : AlikeBy (h.toJsonAt limit room) v w) :
    AlikeBy (h.toJsonAt limit room) v.exempt w.exempt := by
  unfold AlikeBy at halike ⊢
  rw [← toJsonAt_unwrap, ← toJsonAt_unwrap (v := w.exempt), Value.unwrap, Value.unwrap,
    toJsonAt_unwrap, toJsonAt_unwrap]
  exact halike

/-- Containers are written alike if their contents are, one level down. -/
theorem alikeBy_node {limit : UInt32} {room : Nat} {a b : Ref} {c d : Cell X} {t : Assumed}
    (hc : h.cell? a = some c) (hd : h.cell? b = some d)
    (hrel : c.Related (fun v w => v.EqualUnder t w ∧ AlikeBy (h.toJsonAt limit room) v w) d)
    (hkeys : ∀ entries, c = .map entries → ∀ entry ∈ entries, entry.1.unwrap.isContainer = false) :
    AlikeBy (h.toJsonAt limit (room + 1)) (.node a) (.node b) := by
  have hviews : h.view a = h.viewCell c ∧ h.view b = h.viewCell d := by
    simp only [view, hc, hd, and_self]
  have hcells := concur_viewCell h hrel hkeys
  unfold AlikeBy
  rw [toJsonAt_enter, toJsonAt_enter, hviews.1, hviews.2, bind_pure_comp, bind_pure_comp]
  exact hcells.map fun _ _ => .some

/-- Values that are equal under assumptions that were all looked into are written alike. -/
theorem alikeBy_of_equalUnder {h : Heap X} {x v w : Value X} {t : Assumed} (ht : h.Grounded [] t)
    (hx : h.ScalarKeys x) (limit : UInt32) (room : Nat) (hv : h.Below x v)
    (heq : v.EqualUnder t w) : AlikeBy (h.toJsonAt limit room) v w := by
  -- a cycle is met again with fewer levels; a marker takes none
  induction room using Nat.strongRecOn generalizing v w with
  | ind room ih =>
    induction heq with
    | scalar heq =>
      unfold AlikeBy
      rw [toJsonAt_of_equals heq]
      exact AlikeBy.refl (h.toJsonAt limit room) _
    | exempt _ ihinner => exact (ihinner (.marked hv)).exempt
    | @node a b hab =>
      rcases hab with rfl | hmem
      · exact .refl _ _
      · cases (ht.matches_of_mem a b hmem).resolve_left List.not_mem_nil with
        | scalar heq => cases heq
        | @node _ _ c d hc hd hrel =>
          cases room with
          | zero => exact .error trivial
          | succ room =>
            refine alikeBy_node hc hd (hrel.imp fun v' hv' w' _ heq => ⟨heq, ?_⟩)
              fun entries hmap => hx a entries hv (hmap ▸ hc)
            exact ih room (Nat.lt_succ_self _) (.content hv hc hv') heq

/-- Values that compare equal, where the keys of all maps are scalars: if one of them is written as
JSON so is the other one, and the two are equal but for the order of names. -/
theorem toJson_of_structurallyEqual [DecidableEq X] (h : Heap X) (x y : Value X)
    (hx : h.ScalarKeys x) (heq : h.structurallyEqual x y = true) (limit : UInt32) :
    ((∃ json, h.toJson limit x = .ok json) ↔ ∃ json, h.toJson limit y = .ok json) ∧
      ∀ json json', h.toJson limit x = .ok json → h.toJson limit y = .ok json' →
        json.Alike json' := by
  obtain ⟨ht, hxy⟩ := justifies_agree (justifies_nodesAgree h _) x y [] heq
  have halike := alikeBy_of_equalUnder ht hx limit limit.toNat .root hxy
  have hwritten : Concur Document.Alike (fun _ _ => True) (h.toJson limit x) (h.toJson limit y) :=
    Concur.bind halike fun form form' hform => .ok (alike_getD hform)
  exact ⟨hwritten.exists_ok_iff, fun _ _ hok hok' => hwritten.of_ok hok hok'⟩

/-- Two objects of the same content: the first one holds one map twice, the other one two maps in
another order, one of them with the other zero as a key. -/
def twins : Heap Unit :=
  ⟨#[.object (Table.ofList [("left", .node 1), ("right", .node 1)]),
    .map [(.number .zero, .string "none"), (.exempt (.bool true), .undefined)],
    .object (Table.ofList [("right", .node 3), ("left", .node 1)]),
    .map [(.number Double.zero.neg, .string "none"), (.exempt (.bool true), .undefined)]]⟩

theorem toJson_of_structurallyEqual_twins :
    twins.ScalarKeys (.node 0) ∧ twins.structurallyEqual (.node 0) (.node 2) = true ∧
      ∃ json json', twins.toJson 2 (.node 0) = .ok json ∧ twins.toJson 2 (.node 2) = .ok json' ∧
        json.Alike json' := by
  have hkeys : twins.ScalarKeys (.node 0) := by
    intro r entries _ hcell
    rcases r with _ | _ | _ | _ | r <;> simp [twins, cell?] at hcell
    all_goals
      subst hcell
      decide +kernel
  have hequal : twins.structurallyEqual (.node 0) (.node 2) = true := by decide +kernel
  have hwritten : (twins.toJson 2 (.node 0)).isOk = true := by decide +kernel
  obtain ⟨json, hjson⟩ := exists_of_isOk hwritten
  obtain ⟨hboth, halike⟩ := toJson_of_structurallyEqual twins (.node 0) (.node 2) hkeys hequal 2
  obtain ⟨json', hjson'⟩ := hboth.1 ⟨json, hjson⟩
  exact ⟨hkeys, hequal, json, json', hjson, hjson', halike json json' hjson hjson'⟩

end Heap

end TypeDescription
