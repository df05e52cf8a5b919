import TypeDescription.Graph.Interchange
import TypeDescription.Proofs.Double
import TypeDescription.Proofs.Graph.Planting
import TypeDescription.Proofs.Run

/-!
# What JSON keeps of a tree

`Value.persist` is what becomes of a value that is written as JSON and read
back: undefined is left out, numbers lose what JSON cannot write, wrapped values
are unwrapped, and a regular expression is an empty object.
`Document.persist` does so in a whole tree.  `fromJson_toJson` says that a graph
that unfolds to a tree is read back as the persisted tree.
-/

namespace TypeDescription

variable {X : Type}

/-! ## Values -/

/-- A number read back: null for a number that is not finite, and one zero. -/
def Value.ofFinite (x : Double) : Value X :=
  if x.isFinite then .number (if x.isZero then .zero else x) else .null

/-- A wrapped value read back. -/
def Primitive.persist : Primitive → Value X
  | .bool b => .bool b
  | .number x => .ofFinite x
  | .string s => .string s

/-- A value read back, in one form if it was a regular expression and in another if it
is a value still.  Undefined is not written. -/
def Value.persist {α : Type} (pattern : α) (form : Value X → α) : Value X → Option α
  | .undefined => none
  | .number x => some (form (.ofFinite x))
  | .boxed p => some (form p.persist)
  | .date ms => some (form (.ofFinite ms))
  | .regExp _ _ => some pattern
  | value => some (form value)

/-- A value that is no container is undefined, a regular expression, or read back as
such a value. -/
theorem Value.persist_cases {v : Value X} (hv : v.isContainer = false)
    (hplain : v.exempt? = none) :
    v = .undefined ∨ (∃ source flags, v = .regExp source flags) ∨
      ∃ w : Value X, w.isContainer = false ∧ w.exempt? = none ∧
        ∀ {α : Type} (pattern : α) (form : Value X → α),
          v.persist pattern form = some (form w) := by
  have hfinite : ∀ x, (Value.ofFinite x : Value X).isContainer = false ∧
      (Value.ofFinite x : Value X).exempt? = none := by
    intro x
    unfold Value.ofFinite
    split <;> exact ⟨rfl, rfl⟩
  cases v with
  | node r => cases hv
  | exempt inner => cases hplain
  | undefined => exact .inl rfl
  | regExp source flags => exact .inr (.inl ⟨source, flags, rfl⟩)
  | number x => exact .inr (.inr ⟨_, (hfinite x).1, (hfinite x).2, fun _ _ => rfl⟩)
  | date ms => exact .inr (.inr ⟨_, (hfinite ms).1, (hfinite ms).2, fun _ _ => rfl⟩)
  | boxed p =>
    cases p with
    | number x => exact .inr (.inr ⟨_, (hfinite x).1, (hfinite x).2, fun _ _ => rfl⟩)
    | _ => exact .inr (.inr ⟨_, rfl, rfl, fun _ _ => rfl⟩)
  | _ => exact .inr (.inr ⟨_, rfl, rfl, fun _ _ => rfl⟩)

/-- A number that is written as JSON is read back. -/
theorem fromJson_ofDouble (x : Double) :
    fromJson (Json.ofDouble x) = .leaf (Value.ofFinite (X := X) x) := by
  unfold Json.ofDouble Value.ofFinite
  cases hs : x.safeInteger? with
  | some n =>
    simp only [Double.isFinite_of_safeInteger? hs, if_true, ← Double.ofInt_of_safeInteger? hs]
    rfl
  | none =>
    have hzero : x.isZero = false := by
      rw [← Bool.not_eq_true]
      intro hzero
      rw [Double.safeInteger?_of_isZero hzero] at hs
      cases hs
    simp only [hzero]
    split <;> rfl

theorem fromJson_primitive (p : Primitive) : fromJson p.toJson = .leaf (p.persist (X := X)) := by
  cases p with
  | number x => exact fromJson_ofDouble x
  | bool b => rfl
  | string s => rfl

namespace Document

mutual

/-- A tree that was written as JSON and read back. -/
def persist : Encoded X → Option (Encoded X)
  | .leaf value => value.persist (.object []) .leaf
  | .array items => some (.array (persistItems items))
  | .object fields => some (.object (persistFields fields))

/-- Items read back: null for undefined. -/
def persistItems : List (Encoded X) → List (Encoded X)
  | [] => []
  | item :: rest => (persist item).getD (.leaf .null) :: persistItems rest

/-- Fields read back, without those that are undefined. -/
def persistFields : List (String × Encoded X) → List (String × Encoded X)
  | [] => []
  | (key, item) :: rest =>
      match persist item with
      | some item => (key, item) :: persistFields rest
      | none => persistFields rest

end

theorem persistItems_eq (items : List (Encoded X)) :
    persistItems items = items.map fun item => (persist item).getD (.leaf .null) := by
  induction items with
  | nil => rfl
  | cons item rest ih => rw [persistItems, ih, List.map_cons]

theorem persistFields_eq (fields : List (String × Encoded X)) :
    persistFields fields = fields.filterMap fun field =>
      (persist field.2).map fun item => (field.1, item) := by
  induction fields with
  | nil => rfl
  | cons field rest ih =>
    obtain ⟨key, item⟩ := field
    rw [persistFields, List.filterMap_cons, ih]
    cases persist item <;> rfl

theorem mapItems_eq {α β : Type} (f : α → β) (items : List (Document α)) :
    mapItems f items = items.map (map f) := by
  induction items with
  | nil => rfl
  | cons item rest ih => rw [mapItems, ih, List.map_cons]

theorem mapFields_eq {α β : Type} (f : α → β) (fields : List (String × Document α)) :
    mapFields f fields = fields.map fun field => (field.1, field.2.map f) := by
  induction fields with
  | nil => rfl
  | cons field rest ih =>
    obtain ⟨key, item⟩ := field
    rw [mapFields, ih, List.map_cons]

end Document

namespace Heap

/-- Markers are looked through. -/
theorem toJsonAt_unwrap (k : Heap X) (limit : UInt32) (room : Nat) (v : Value X) :
    k.toJsonAt limit room v.unwrap = k.toJsonAt limit room v := by
  cases room <;> (unfold toJsonAt; rw [Value.unwrap_unwrap])

/-- What is no container is written alike in all graphs. -/
theorem toJsonAt_scalar {v : Value X} (hv : v.unwrap.isContainer = false) (h k : Heap X)
    (limit : UInt32) (room : Nat) : k.toJsonAt limit room v = h.toJsonAt limit room v := by
  rw [← toJsonAt_unwrap k, ← toJsonAt_unwrap h]
  have hplain := v.exempt?_unwrap
  generalize v.unwrap = w at hv hplain
  cases w with
  | node r => cases hv
  | exempt inner => cases hplain
  | _ => cases room <;> rfl

/-- No level is left for a container. -/
theorem toJsonAt_deep (k : Heap X) (limit : UInt32) (r : Ref) :
    k.toJsonAt limit 0 (.node r) = .error (.depthExceeded limit) :=
  rfl

/-- A container is written by writing what lies in it, with one level less. -/
theorem toJsonAt_enter (k : Heap X) (limit : UInt32) (room : Nat) (r : Ref) :
    k.toJsonAt limit (room + 1) (.node r) = do
      let json ← viewToJson (k.toJsonAt limit room) (k.view r)
      return some json :=
  rfl

/-- What is written of a value that is no container is read back as it persists. -/
theorem fromJson_toJsonAt_leaf {k : Heap X} {limit : UInt32} {room : Nat} {v : Value X}
    {json : Option Json} (hv : v.isContainer = false) (hplain : v.exempt? = none)
    (hok : k.toJsonAt limit room v = .ok json) :
    json.map fromJson = v.persist (.object []) .leaf := by
  rw [toJsonAt.eq_def] at hok
  cases v with
  | node r => cases hv
  | exempt inner => cases hplain
  | number x =>
    cases hok
    exact congrArg some (fromJson_ofDouble x)
  | boxed p =>
    cases hok
    exact congrArg some (fromJson_primitive p)
  | date ms =>
    cases hok
    exact congrArg some (fromJson_ofDouble ms)
  | bigInt _ => cases hok
  | foreign _ => cases hok
  | _ =>
    cases hok
    rfl

theorem toJson_eq_error_iff {k : Heap X} {limit : UInt32} {v : Value X} {error : CodecError} :
    k.toJson limit v = .error error ↔ k.toJsonAt limit limit.toNat v = .error error := by
  refine bind_eq_error.trans ⟨fun herror => ?_, .inl⟩
  rcases herror with herror | ⟨_, _, herror⟩
  · exact herror
  · cases herror

/-- A container is not written if something in it is not. -/
theorem viewToJson_eq_error {child : Value X → Except CodecError (Option Json)} {view : View X}
    {error : CodecError} (herror : viewToJson child view = .error error) :
    ∃ u ∈ view.values, child u = .error error := by
  cases view with
  | list items =>
    rcases bind_eq_error.1 herror with herror | ⟨_, _, herror⟩
    · exact exists_of_mapM_error herror
    · cases herror
  | named fields =>
    rcases bind_eq_error.1 herror with herror | ⟨_, _, herror⟩
    · obtain ⟨field, hfield, herror⟩ := exists_of_mapM_error herror
      rcases bind_eq_error.1 herror with herror | ⟨_, _, herror⟩
      · exact ⟨field.2, List.mem_map_of_mem hfield, herror⟩
      · cases herror
    · cases herror

/-- All values of a container that is written are written. -/
theorem viewToJson_eq_ok {child : Value X → Except CodecError (Option Json)} {view : View X}
    {json : Json} (hok : viewToJson child view = .ok json) :
    ∀ u ∈ view.values, ∃ json, child u = .ok json := by
  cases view with
  | list items =>
    obtain ⟨written, hwritten, _⟩ := bind_eq_ok.1 hok
    intro u hu
    obtain ⟨json, _, hjson⟩ := exists_mem_of_forall₂ (forall₂_of_mapM_ok hwritten).flip u hu
    exact ⟨json, hjson⟩
  | named fields =>
    obtain ⟨written, hwritten, _⟩ := bind_eq_ok.1 hok
    intro u hu
    obtain ⟨field, hfield, rfl⟩ := List.mem_map.1 hu
    obtain ⟨_, _, hok⟩ := exists_mem_of_forall₂ (forall₂_of_mapM_ok hwritten).flip field hfield
    obtain ⟨json, hjson, _⟩ := bind_eq_ok.1 hok
    exact ⟨json, hjson⟩

/-- A container is written by writing what lies in it. -/
theorem toJsonAt_node {k : Heap X} {limit : UInt32} {room : Nat} {r : Ref} {json : Option Json}
    (hok : k.toJsonAt limit room (.node r) = .ok json) :
    ∃ left json', room = left + 1 ∧ viewToJson (k.toJsonAt limit left) (k.view r) = .ok json' ∧
      json = some json' := by
  cases room with
  | zero => cases hok
  | succ left =>
    rw [toJsonAt_enter, bind_eq_ok] at hok
    obtain ⟨json', hview, hjson⟩ := hok
    exact ⟨left, json', rfl, hview, (Except.ok.inj hjson).symm⟩

section Children

variable {k : Heap X} {child : Value X → Except CodecError (Option Json)}
  {vs : List (Value X)} {docs : List (Encoded X)} {items : List (Option Json)}

/-- Trees that are written one by one are read back one by one. -/
theorem forall₂_persist (hdocs : List.Forall₂ k.Unfolds vs docs)
    (hitems : List.Forall₂ (fun v item => child v = .ok item) vs items)
    (hchild : ∀ doc ∈ docs, ∀ v item, k.Unfolds v doc → child v = .ok item →
      item.map fromJson = doc.persist) :
    List.Forall₂ (fun item doc => item.map fromJson = Document.persist doc) items docs := by
  induction hdocs generalizing items with
  | nil =>
    cases hitems
    exact .nil
  | cons hdoc _ ih =>
    cases hitems with
    | cons hitem hitems =>
      exact .cons (hchild _ List.mem_cons_self _ _ hdoc hitem)
        (ih hitems fun doc hdoc => hchild doc (List.mem_cons_of_mem _ hdoc))

/-- Items read back. -/
theorem fromJson_items
    (h : List.Forall₂ (fun item doc => item.map fromJson = Document.persist doc) items docs) :
    fromJson (.array (items.map fun item => item.getD Json.null)) =
      .array (Document.persistItems docs) := by
  rw [fromJson, Document.map, Document.mapItems_eq, Document.persistItems_eq]
  congr 1
  induction h with
  | nil => rfl
  | @cons item doc items docs hitem _ ih =>
    rw [List.map_cons, List.map_cons, List.map_cons, ih, ← hitem]
    cases item <;> rfl

/-- Fields read back. -/
theorem fromJson_fields {fields : List (String × Encoded X)} (hnames : (fields.map Prod.fst).Nodup)
    (h : List.Forall₂ (fun item doc => item.map fromJson = Document.persist doc) items
      (fields.map Prod.snd)) :
    fromJson (.ofFields (((fields.map Prod.fst).zip items).filterMap fun field =>
        field.2.map fun json => (field.1, json))) =
      .object (Document.persistFields fields) := by
  have hlen : items.length = fields.length := by simpa using h.length_eq
  have hkeys : ((fields.map Prod.fst).zip items).map Prod.fst = fields.map Prod.fst :=
    List.map_fst_zip (by simp [hlen])
  rw [Document.ofFields_of_nodup (.sublist (keys_filterMap_sublist Prod.fst _ _) (by rwa [hkeys])),
    fromJson, Document.map, Document.mapFields_eq, Document.persistFields_eq]
  congr 1
  clear hnames hlen hkeys
  induction fields generalizing items with
  | nil => rfl
  | cons field fields ih =>
    cases h with
    | @cons item _ items _ hitem h =>
      simp only [List.map_cons, List.zip_cons_cons, List.filterMap_cons, ← hitem]
      cases item with
      | none => exact ih h
      | some json => exact congrArg _ (ih h)

end Children

/-- What is written of a graph is read back as the persisted tree. -/
theorem fromJson_toJsonAt {k : Heap X} {limit : UInt32} {room : Nat} {v : Value X} {e : Encoded X}
    {json : Option Json} (hu : k.Unfolds v e) (hplain : e.Tidy fun v => v.exempt? = none)
    (hok : k.toJsonAt limit room v = .ok json) : json.map fromJson = e.persist := by
  induction e using Document.induct generalizing v room json with
  | leaf value =>
    cases hu with
    | leaf hv =>
      cases hplain with
      | leaf hplain => exact fromJson_toJsonAt_leaf hv hplain hok
  | array docs ih =>
    cases hu with
    | array hcell hdocs =>
      cases hplain with
      | array hplain =>
        obtain ⟨room, json, rfl, hview, rfl⟩ := toJsonAt_node hok
        simp only [view, hcell, viewCell, viewToJson, bind_eq_ok] at hview
        obtain ⟨items, hitems, hjson⟩ := hview
        cases hjson
        exact congrArg some (fromJson_items (forall₂_persist hdocs (forall₂_of_mapM_ok hitems)
          fun doc hdoc v item hu hok => ih doc hdoc hu (hplain doc hdoc) hok))
  | object fields ih =>
    cases hu with
    | @object _ t _ hcell hkeys hdocs =>
      cases hplain with
      | object hnames hplain =>
        obtain ⟨room, json, rfl, hview, rfl⟩ := toJsonAt_node hok
        have hkeyed := mapM_keyed Prod.fst
          (fun entry : String × Value X => k.toJsonAt limit room entry.2) t.entries
        simp only [view, hcell, viewCell, viewToJson, bind_pure_comp, hkeyed, map_eq_ok] at hview
        obtain ⟨_, ⟨items, hitems, rfl⟩, rfl⟩ := hview
        have hvalues : List.Forall₂ (fun v item => k.toJsonAt limit room v = .ok item) t.values
            items := List.forall₂_map_left_iff.2 (forall₂_of_mapM_ok hitems)
        have hall := forall₂_persist hdocs hvalues
          fun doc hdoc v item hu hok => ih doc hdoc hu (hplain doc hdoc) hok
        rw [Option.map_some, show t.entries.map Prod.fst = fields.map Prod.fst from hkeys,
          fromJson_fields hnames hall]
        rfl

/-- The tree that a graph is read back as. -/
theorem fromJson_toJson {k : Heap X} {limit : UInt32} {v : Value X} {e : Encoded X} {json : Json}
    (hu : k.Unfolds v e) (hplain : e.Tidy fun v => v.exempt? = none)
    (hok : k.toJson limit v = .ok json) : fromJson json = e.persist.getD (.leaf .null) := by
  simp only [toJson, bind_eq_ok] at hok
  obtain ⟨item, hitem, hjson⟩ := hok
  cases hjson
  rw [← fromJson_toJsonAt hu hplain hitem]
  cases item <;> rfl

end Heap

end TypeDescription
