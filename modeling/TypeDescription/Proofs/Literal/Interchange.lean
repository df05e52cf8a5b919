import TypeDescription.Proofs.Graph.NormalizedJson
import TypeDescription.Proofs.Graph.Tokens
import TypeDescription.Proofs.Literal.Counted
import TypeDescription.Proofs.Outcomes

/-!
# Literals and JSON of one graph

A graph can be written as JSON or as a literal, and the literal is itself written as JSON.  Dates,
integers of any size and payloads have a literal that is not their JSON, or no JSON at all.
Without them both ways agree (`toJson_eq_toJson_convert`): they fail for the same limits, and else
give the same JSON.

The two walks leave undefined fields out in different places.  JSON is asked for every field and is
none where the value is undefined; a literal is asked for the defined fields only.  `Tally` says
what the answers for one value have to do with each other.
-/

namespace TypeDescription

variable {X : Type}

/-- Whether a value that is no container has one form in JSON and in literals. -/
def Value.isInterchangeable : Value X → Bool
  | .date _ => false
  | .bigInt _ => false
  | .foreign _ => false
  | _ => true

/-! ## The JSON of a literal -/

namespace Literal

theorem merge_toJson_array (items : List Literal) :
    Document.merge (toJson (.array items)) = .array (items.map fun L => L.toJson.merge) := by
  rw [toJson, Document.map, Document.mapItems_eq, Document.merge, Document.mergeItems_eq,
    List.map_map]
  rfl

theorem merge_toJson_object (fields : List (String × Literal)) :
    Document.merge (toJson (.object fields)) =
      .ofFields (fields.map fun field => (field.1, field.2.toJson.merge)) := by
  rw [toJson, Document.map, Document.mapFields_eq, Document.merge, Document.mergeFields_eq,
    List.map_map]
  rfl

end Literal

/-- A number has one form in JSON, whether it is written at once or as a literal. -/
theorem Json.ofDouble_eq (x : Double) :
    ofDouble x = .leaf (Literal.Scalar.toJson (.number x)) := by
  simp only [ofDouble, Literal.Scalar.toJson]
  cases x.safeInteger? with
  | some n => rfl
  | none => cases x.isFinite <;> rfl

/-- The JSON of a value is that of its literal, and none if the value is undefined. -/
structure Tally (v : Value X) (json : Option Json) (L : Literal) : Prop where
  isSome_eq : json.isSome = v.isDefined
  getD_eq : json.getD Json.null = Document.merge L.toJson

namespace Heap

/-! ## One container -/

section Container

variable {ε ε' : Type} {E : CodecError → LiteralError → Prop}
  {child : Value Expression → Except CodecError (Option Json)}
  {child' : Value Expression → Except LiteralError Literal}

/-- The fields that have JSON are those that have a literal. -/
theorem concur_fields {fields : List (String × Value Expression)}
    (hchild : ∀ field ∈ fields, Concur (Tally field.2) E (child field.2) (child' field.2))
    (hundefined : ∀ v, v.isDefined = false → child v = .ok none) :
    Concur (fun items written => items.filterMap Table.present =
        written.map fun field => (field.1, Document.merge field.2.toJson)) E
      (fields.mapM fun field => Prod.mk field.1 <$> child field.2)
      ((fields.filter fun field => field.2.isDefined).mapM fun field =>
        Prod.mk field.1 <$> child' field.2) := by
  induction fields with
  | nil => exact .ok rfl
  | cons field fields ih =>
    obtain ⟨hhead, htail⟩ := List.forall_mem_cons.1 hchild
    rw [List.mapM_cons]
    -- an undefined field is left out before the literals are made, of the JSON only afterwards
    cases hdefined : field.2.isDefined with
    | false =>
      rw [List.filter_cons_of_neg (by simp [hdefined]), hundefined _ hdefined]
      exact (ih htail).map_left fun items written heq => by
        rw [List.filterMap_cons_none (Table.present_none _), heq]
    | true =>
      rw [List.filter_cons_of_pos (by simp [hdefined]), List.mapM_cons]
      have hfield := hhead.map (f := Prod.mk field.1) (g := Prod.mk field.1)
        (Q := fun item part => Table.present item = some (part.1, Document.merge part.2.toJson))
        fun json L htally => by
          obtain ⟨form, rfl⟩ := Option.isSome_iff_exists.1 (htally.isSome_eq.trans hdefined)
          rw [Table.present_some, ← htally.getD_eq]
          rfl
      refine hfield.bind fun item part hpart => (ih htail).bind fun items written heq => .ok ?_
      rw [List.filterMap_cons_some hpart, heq, List.map_cons]

/-- The JSON of a container is that of its literal. -/
theorem concur_view {view : View Expression}
    (hchild : ∀ v ∈ view.values, Concur (Tally v) E (child v) (child' v))
    (hundefined : ∀ v, v.isDefined = false → child v = .ok none) :
    Concur (fun json L => json = Document.merge L.toJson) E (viewToJson child view)
      (viewToLiteral child' view) := by
  cases view with
  | list items =>
    have hitems := Concur.mapM (Q := fun v w => Concur (Tally v) E (child v) (child' w))
      (P := fun json L => json.getD Json.null = Document.merge L.toJson)
      (List.forall₂_same.2 hchild) fun v w h => h.imp fun json L htally => htally.getD_eq
    refine hitems.bind fun jsons written hall => .ok ?_
    rw [Literal.merge_toJson_array]
    exact congrArg Document.array (List.forall₂_eq_eq_eq ▸
      List.forall₂_map_left_iff.2 (List.forall₂_map_right_iff.2 hall))
  | named fields =>
    have hvalues : ∀ field ∈ fields, Concur (Tally field.2) E (child field.2) (child' field.2) :=
      fun field hfield => hchild field.2 (List.mem_map_of_mem hfield)
    have hfields := concur_fields hvalues hundefined
    refine Concur.bind hfields fun items written heq => .ok ?_
    rw [Literal.merge_toJson_object, ← heq]
    rfl

end Container

/-! ## Whole graphs -/

section Graph

variable {h : Heap Expression} {x v : Value Expression}

theorem toJsonAt_of_undefined {h : Heap X} {limit : UInt32} {room : Nat} {v : Value X}
    (hv : v.isDefined = false) : h.toJsonAt limit room v = .ok none := by
  rw [← toJsonAt_unwrap]
  unfold Value.isDefined at hv
  cases hu : v.unwrap <;> simp_all [Value.isUndefined]
  cases room <;> rfl

/-- What is no container is written as JSON and as a literal of one form. -/
theorem concur_scalar {E : CodecError → LiteralError → Prop} {limit : UInt32} {room : Nat}
    (hv : v.isContainer = false) (hplain : v.exempt? = none) (hform : v.isInterchangeable = true) :
    Concur (Tally v) E (h.toJsonAt limit room v) (h.toLiteralAt limit room v) := by
  cases v with
  | node r => cases hv
  | exempt inner => cases hplain
  | date ms => cases hform
  | bigInt digits => cases hform
  | foreign e => cases hform
  | number y => cases room <;> exact .ok ⟨rfl, Json.ofDouble_eq y⟩
  | boxed p =>
    cases p with
    | number y => cases room <;> exact .ok ⟨rfl, Json.ofDouble_eq y⟩
    | _ => cases room <;> exact .ok ⟨rfl, rfl⟩
  | _ => cases room <;> exact .ok ⟨rfl, rfl⟩

/-- Both ways of writing a value enter the same containers. -/
theorem concur_toJsonAt (hx : ∀ v, h.Below x v → v.isInterchangeable = true) (limit : UInt32)
    (room : Nat) (hv : h.Below x v) :
    Concur (Tally v) (fun e e' => e = .depthExceeded limit ∧ e' = .depthExceeded limit)
      (h.toJsonAt limit room v) (h.toLiteralAt limit room v) := by
  induction room using Nat.strongRecOn generalizing v with
  | ind room ih =>
    have htally : Tally v.unwrap = Tally v := by
      funext json L
      have hdefined : v.unwrap.isDefined = v.isDefined := by
        rw [Value.isDefined, Value.unwrap_unwrap, Value.isDefined]
      exact propext ⟨fun t => ⟨t.1.trans hdefined, t.2⟩, fun t => ⟨t.1.trans hdefined.symm, t.2⟩⟩
    rw [← toJsonAt_unwrap, ← toLiteralAt_unwrap, ← htally]
    have hplain := v.exempt?_unwrap
    replace hv := hv.unwrap
    generalize v.unwrap = w at hv hplain
    cases w with
    | node r =>
      cases room with
      | zero => exact .error ⟨rfl, rfl⟩
      | succ room =>
        have hview := concur_view
          (fun u hu => ih room (Nat.lt_succ_self _) (hv.values hu))
          fun u => toJsonAt_of_undefined
        rw [toJsonAt_enter, bind_pure_comp]
        exact hview.map_left fun json L heq => ⟨rfl, heq⟩
    | exempt inner => cases hplain
    | _ => exact concur_scalar rfl rfl (hx _ hv)

/-- A graph without dates, integers of any size and payloads is written as JSON if it is written
as a literal, which has the same JSON; or both report that it nests too deep.  However that
ends, the caller's counter keeps its depth. -/
theorem toJson_eq_toJson_convert (h : Heap Expression) (x : Value Expression)
    (hx : ∀ v, h.Below x v → v.isInterchangeable = true) (limit : UInt32) :
    ((∃ json L, h.toJson limit x = .ok json ∧
        (h.convert x).run.run (.ofLimit limit) = (.ok L, .ofLimit limit) ∧
        Document.merge L.toJson = json) ∨
      h.toJson limit x = .error (.depthExceeded limit) ∧
        ((h.convert x).run.run (.ofLimit limit)).1 = .error (.depthExceeded limit)) ∧
    ∀ c : DepthCounter, ((h.convert x).run.run c).2.depth = c.depth := by
  refine ⟨?_, fun c => by rw [run_convert, DepthCounter.depth_after]⟩
  rw [run_convert_ofLimit]
  unfold toJson toLiteral
  have hroot := concur_toJsonAt hx limit limit.toNat .root
  generalize h.toJsonAt limit limit.toNat x = written at hroot
  generalize h.toLiteralAt limit limit.toNat x = literal at hroot
  cases hroot with
  | @ok form L htally => exact .inl ⟨_, L, rfl, rfl, htally.getD_eq.symm⟩
  | error herror =>
    obtain ⟨rfl, rfl⟩ := herror
    exact .inr ⟨rfl, rfl⟩

/-- A map that holds an array under `1` and under `"1"`, the second time as an exempt value.  The
array holds a wrapped value, nothing and a NaN; an entry of the map is undefined. -/
def ledger : Heap Expression :=
  ⟨#[.map [(.number (Double.ofInt 1), .node 1), (.null, .undefined),
      (.string "1", .exempt (.node 1))],
    .array [.boxed (.bool true), .undefined, .number .nan]]⟩

/-- All that is in `ledger`. -/
def ledgerValues : List (Value Expression) :=
  [.node 0, .number (Double.ofInt 1), .node 1, .null, .undefined, .string "1",
    .exempt (.node 1), .boxed (.bool true), .number .nan]

theorem toJson_eq_toJson_convert_ledger :
    (∀ v, ledger.Below (.node 0) v → v.isInterchangeable = true) ∧
      (∃ json L, ledger.toJson 2 (.node 0) = .ok json ∧
        (ledger.convert (.node 0)).run.run (.ofLimit 2) = (.ok L, .ofLimit 2) ∧
        Document.merge L.toJson = json) ∧
      ledger.toJson 1 (.node 0) = .error (.depthExceeded 1) ∧
      ((ledger.convert (.node 0)).run.run (.ofLimit 1)).1 = .error (.depthExceeded 1) := by
  have hx : ∀ v, ledger.Below (.node 0) v → v.isInterchangeable = true := by
    intro v hv
    have hparts : ∀ w ∈ ledgerValues, ∀ u ∈ ledger.parts w, u ∈ ledgerValues := by
      decide +kernel
    have hforms : ∀ w ∈ ledgerValues, w.isInterchangeable = true := by decide +kernel
    exact hforms v (hv.mem_of_closed hparts List.mem_cons_self)
  have hshallow : (ledger.toJson 2 (.node 0)).isOk = true := by decide +kernel
  have hdeep : (ledger.toJson 1 (.node 0)).isOk = false := by decide +kernel
  refine ⟨hx, ?_, ?_⟩
  · refine (toJson_eq_toJson_convert ledger (.node 0) hx 2).1.resolve_right fun hfail => ?_
    rw [hfail.1] at hshallow
    cases hshallow
  · refine (toJson_eq_toJson_convert ledger (.node 0) hx 1).1.resolve_left fun hwritten => ?_
    obtain ⟨json, L, hjson, _⟩ := hwritten
    rw [hjson] at hdeep
    cases hdeep

end Graph

end Heap

end TypeDescription
