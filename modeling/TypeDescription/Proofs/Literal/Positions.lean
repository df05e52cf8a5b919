import TypeDescription.Proofs.Literal.Faithful
import TypeDescription.Proofs.Literal.Layout

/-!
# Positions

A type stands at a property, at the type of a constructor parameter, in a list or as a
base, and the same type may stand in many places.  `Store.place?` follows steps from a
node to a type and gives the position where the last step arrives.  In the literal the
steps are a path (`ChildStep.route`), and there is one way at most to read a path as
steps (`ChildStep.flatMap_route_injective`).

A walk of the layout has more places than there are types: the fields of a type and
what is inside its lists and tables.  `Store.Seated` says of each where it is, counted
from the type that it belongs to.  Whatever is inside a seated place is seated
(`Seated.field`, `Seated.property`, `Seated.parameter`, `Seated.part`).
-/

namespace TypeDescription

/-! ## Steps and paths -/

namespace ChildStep

theorem route_ne_nil (step : ChildStep) : step.route ≠ [] := by
  cases step <;> exact List.cons_ne_nil _ _

/-- No step goes on where another one arrives. -/
theorem route_append_inj {step step' : ChildStep} {path : Path}
    (h : step.route ++ path = step'.route ++ path') : step = step' ∧ path = path' := by
  have hindex : ∀ {i j : Nat}, Step.ofIndex i = Step.ofIndex j → i = j := fun h =>
    Step.ofIndex_injective h
  cases step <;> cases step' <;>
    simp only [route, List.cons_append, List.nil_append, List.cons.injEq, Step.key.injEq,
      String.reduceEq, false_and, true_and, property.injEq, parameter.injEq, element.injEq,
      member.injEq, argument.injEq] at h ⊢
  case property.property => exact h
  case parameter.parameter => exact ⟨⟨hindex h.1, hindex h.2.1⟩, h.2.2⟩
  case element.element => exact ⟨hindex h.1, h.2⟩
  case member.member => exact ⟨hindex h.1, h.2⟩
  case argument.argument => exact ⟨hindex h.1, h.2⟩
  case base.base => exact h

/-- A path can be read as steps in one way at most. -/
theorem flatMap_route_injective :
    Function.Injective fun steps : List ChildStep => steps.flatMap route := by
  intro steps steps' h
  induction steps generalizing steps' with
  | nil =>
    cases steps' with
    | nil => rfl
    | cons step' _ => exact absurd (List.append_eq_nil_iff.1 h.symm).1 step'.route_ne_nil
  | cons step steps ih =>
    cases steps' with
    | nil => exact absurd (List.append_eq_nil_iff.1 h).1 step.route_ne_nil
    | cons step' steps' =>
      obtain ⟨rfl, hpath⟩ := route_append_inj h
      rw [ih hpath]

end ChildStep

/-! ## The position of a type -/

namespace TypeContent

/-- A parameter of a constructor, both by their positions. -/
def parameter? (content : TypeContent) (i j : Nat) : Option Member :=
  (content.constructors?.bind fun l => l[i]?).bind fun c => c.parameters[j]?

/-- The position of the type that a step leads to. -/
def position (content : TypeContent) : ChildStep → Position
  | .property name => (content.property? name).elim .plain .ofProperty
  | .parameter i j => (content.parameter? i j).elim .plain .ofParameter
  | _ => .plain

theorem properties_of_properties? {content : TypeContent} {members : List Member}
    (h : content.properties? = some members) : content.properties = members := by
  cases content with
  | object _ _ => exact Option.some.inj h
  | classType _ => exact Option.some.inj h
  | _ => cases h

/-- A property is found under its name, where no other one has it. -/
theorem property?_of_mem {content : TypeContent} {member : Member}
    (hnames : (content.properties.map Member.name).Nodup) (hmember : member ∈ content.properties) :
    content.property? member.name = some member := by
  unfold property?
  cases hfound : content.properties.find? fun found => found.name == member.name with
  | none => simpa using List.find?_eq_none.1 hfound member hmember
  | some found =>
    have hname : found.name = member.name := by simpa using List.find?_some hfound
    rw [List.inj_on_of_nodup_map hnames (List.mem_of_find?_eq_some hfound) hmember hname]

theorem child?_parameter {content : TypeContent} {i j : Nat} {p : Member}
    (h : content.parameter? i j = some p) : content.child? (.parameter i j) = some p.type := by
  obtain ⟨c, hc, hp⟩ := Option.bind_eq_some_iff.1 h
  obtain ⟨l, hl, hc⟩ := Option.bind_eq_some_iff.1 hc
  simp [child?, hl, hc, hp]

end TypeContent

namespace Store

/-- The node that steps lead to, and its position.  That of the node at their start is
given. -/
def place? (store : Store) (n : NodeRef) (position : Position) :
    List ChildStep → Option (NodeRef × Position)
  | [] => some (n, position)
  | step :: steps =>
      (store.content? n).bind fun content => (content.child? step).bind fun child =>
        store.place? child (content.position step) steps

/-- The identity and the kind of a type. -/
def identity? (store : Store) (n : NodeRef) : Option (TypeId × TypeKind) :=
  (store.node? n).bind fun node => node.content.map fun content => (node.id, content.kind)

end Store

/-- The literal tells the modifiers and the initial value of a position, if there are any,
and none if not. -/
structure Literal.TellsPosition (M : Literal) (position : Position) : Prop where
  modifiers : M.get? "modifiers" =
    position.modifiers.map fun m => .leaf (.number (Double.ofNat m.bits.toNat))
  initializer : M.get? "initializer" = position.initializer.map fun e => .leaf (.verbatim e)

namespace Store

section Place

variable {store : Store} {root n child : NodeRef} {given position : Position}
  {steps : List ChildStep} {step : ChildStep} {content : TypeContent}

/-- One step further. -/
theorem place?_concat (h : store.place? root given steps = some (n, position))
    (hcontent : store.content? n = some content) (hchild : content.child? step = some child) :
    store.place? root given (steps ++ [step]) = some (child, content.position step) := by
  induction steps generalizing root given with
  | nil =>
    obtain ⟨rfl, rfl⟩ := Prod.mk.inj (Option.some.inj h)
    exact Option.bind_eq_some_iff.2
      ⟨content, hcontent, Option.bind_eq_some_iff.2 ⟨child, hchild, rfl⟩⟩
  | cons first steps ih =>
    obtain ⟨content', hcontent', h⟩ := Option.bind_eq_some_iff.1 h
    obtain ⟨child', hchild', h⟩ := Option.bind_eq_some_iff.1 h
    exact Option.bind_eq_some_iff.2 ⟨content', hcontent',
      Option.bind_eq_some_iff.2 ⟨child', hchild', ih h⟩⟩

/-- Steps lead to nodes inside. -/
theorem below_of_place? {start : NodeRef} (hstart : store.Below root start)
    (h : store.place? start given steps = some (n, position)) : store.Below root n := by
  induction steps generalizing start given with
  | nil =>
    obtain ⟨rfl, _⟩ := Prod.mk.inj (Option.some.inj h)
    exact hstart
  | cons step steps ih =>
    obtain ⟨content, hcontent, h⟩ := Option.bind_eq_some_iff.1 h
    obtain ⟨child, hchild, h⟩ := Option.bind_eq_some_iff.1 h
    exact ih (.child hstart hcontent (TypeContent.mem_children_of_child? hchild)) h

end Place

end Store

/-! ## Places inside a type -/

/-- A list or a table stands in a type, at the end of a path. -/
inductive TypeContent.Keeps (content : TypeContent) : Path → Layout → Prop
  | scalar {path : Path} : Keeps content path .scalar
  | properties {members : List Member} : content.properties? = some members →
      Keeps content [.key "properties"] (.properties members)
  | elements {nodes : List NodeRef} : content.elements? = some nodes →
      Keeps content [.key "elementTypes"] (.types nodes)
  | members {nodes : List NodeRef} : content.members? = some nodes →
      Keeps content [.key "types"] (.types nodes)
  | arguments {nodes : List NodeRef} : content.arguments? = some nodes →
      Keeps content [.key "arguments"] (.types nodes)
  | constructors {list : List Constructor} : content.constructors? = some list →
      Keeps content [.key "constructors"] (.constructors list)
  | constructor {list : List Constructor} {i : Nat} {c : Constructor} :
      content.constructors? = some list → list[i]? = some c →
        Keeps content [.key "constructors", .ofIndex i] (.constructor c)
  | parameters {list : List Constructor} {i : Nat} {c : Constructor} :
      content.constructors? = some list → list[i]? = some c →
        Keeps content [.key "constructors", .ofIndex i, .key "parameters"]
          (.parameters c.parameters)
  | parameter {i j : Nat} {p : Member} : content.parameter? i j = some p →
      Keeps content [.key "constructors", .ofIndex i, .key "parameters", .ofIndex j] (.parameter p)

/-- A place in the literal of a node: that of a type, to which steps lead, or one inside
a type. -/
inductive Store.Seated (store : Store) (root : NodeRef) (given : Position) :
    Trail → Layout → Position → Prop
  | type {trail : Trail} {steps : List ChildStep} {n : NodeRef} {position : Position} :
      trail.reverse = steps.flatMap ChildStep.route →
        store.place? root given steps = some (n, position) →
          Seated store root given trail (.type n) position
  | inside {trail : Trail} {steps : List ChildStep} {path : Path} {n : NodeRef}
      {position : Position} {content : TypeContent} {layout : Layout} :
      trail.reverse = steps.flatMap ChildStep.route ++ path →
        store.place? root given steps = some (n, position) → store.content? n = some content →
          content.Keeps path layout → Seated store root given trail layout .plain

namespace Layout

theorem exists_of_mem_items {α : Type} {item : α → Layout} {l : List α} {part : Step × Layout}
    (h : part ∈ items item l) : ∃ i a, l[i]? = some a ∧ part = (.ofIndex i, item a) := by
  obtain ⟨⟨a, i⟩, hmem, rfl⟩ := List.mem_map.1 h
  exact ⟨i, a, List.mem_zipIdx_iff_getElem?.1 hmem, rfl⟩

end Layout

namespace Store.Seated

section Inside

variable {store : Store} {root n : NodeRef} {given position : Position} {trail : Trail}
  {content : TypeContent} {layout : Layout}

theorem start (store : Store) (n : NodeRef) (given : Position) :
    store.Seated n given [] (.type n) given :=
  .type rfl (rfl : store.place? n given [] = some (n, given))

/-- A field of a type. -/
theorem field (h : store.Seated root given trail (.type n) position)
    (hcontent : store.content? n = some content) {field : String × Layout}
    (hfield : field ∈ content.fields) :
    store.Seated root given (.key field.1 :: trail) field.2 .plain := by
  cases h with
  | @type steps _ _ htrail hplace =>
    have hinside : ∀ {name : String} {layout : Layout}, content.Keeps [.key name] layout →
        store.Seated root given (.key name :: trail) layout .plain := fun hkeeps =>
      .inside (by rw [List.reverse_cons, htrail]) hplace hcontent hkeeps
    cases content with
    | object name members =>
      obtain rfl | rfl : field = _ ∨ field = _ := by simpa [TypeContent.fields] using hfield
      · exact hinside .scalar
      · exact hinside (.properties rfl)
    | classType content =>
      rcases List.mem_append.1 hfield with hfield | hfield
      · obtain rfl | rfl | rfl : field = _ ∨ field = _ ∨ field = _ := by simpa using hfield
        · exact hinside .scalar
        · exact hinside (.properties rfl)
        · exact hinside (.constructors rfl)
      · obtain ⟨base, hbase, rfl⟩ := List.mem_map.1 hfield
        have hchild : (TypeContent.classType content).child? .base = some base :=
          Option.mem_toList.1 hbase
        refine .type ?_ (place?_concat hplace hcontent hchild)
        rw [List.reverse_cons, htrail, List.flatMap_append]
        rfl
    | tuple elements =>
      obtain rfl := List.mem_singleton.1 hfield
      exact hinside (.elements rfl)
    | union members =>
      obtain rfl := List.mem_singleton.1 hfield
      exact hinside (.members rfl)
    | stringLiteral value =>
      obtain rfl := List.mem_singleton.1 hfield
      exact hinside .scalar
    | numberLiteral value =>
      obtain rfl := List.mem_singleton.1 hfield
      exact hinside .scalar
    | reference name arguments =>
      obtain rfl | rfl : field = _ ∨ field = _ := by simpa [TypeContent.fields] using hfield
      · exact hinside .scalar
      · exact hinside (.arguments rfl)
    | _ => cases hfield
  | inside _ _ _ hkeeps => cases hkeeps

/-- The type at the end of one more step. -/
theorem child {steps : List ChildStep} {path : Path} {step : ChildStep} {m : NodeRef}
    (htrail : trail.reverse = steps.flatMap ChildStep.route ++ path)
    (hplace : store.place? root given steps = some (n, position))
    (hcontent : store.content? n = some content) (hchild : content.child? step = some m)
    {last : Step} (hroute : path ++ [last] = step.route) :
    store.Seated root given (last :: trail) (.type m) (content.position step) := by
  refine .type ?_ (place?_concat hplace hcontent hchild)
  rw [List.reverse_cons, htrail, List.append_assoc, hroute, List.flatMap_append,
    List.flatMap_singleton]

/-- The type of a property, where no other one has its name. -/
theorem property (hnames : store.NamesProperties root) {members : List Member}
    (h : store.Seated root given trail (.properties members) position) {member : Member}
    (hmember : member ∈ members) :
    store.Seated root given (.key member.name :: trail) (.type member.type)
      (.ofProperty member) := by
  cases h with
  | @inside steps path n _ content _ htrail hplace hcontent hkeeps =>
    cases hkeeps with
    | properties hproperties =>
      have hnodup := hnames _ _ (below_of_place? .self hplace) hcontent
      have hfound : content.property? member.name = some member :=
        TypeContent.property?_of_mem hnodup
          (TypeContent.properties_of_properties? hproperties ▸ hmember)
      have hchild : content.child? (.property member.name) = some member.type := by
        simp [TypeContent.child?, hfound]
      have hposition : content.position (.property member.name) = .ofProperty member := by
        simp [TypeContent.position, hfound]
      exact hposition ▸ child htrail hplace hcontent hchild rfl

/-- The type of a constructor parameter. -/
theorem parameter {p : Member} (h : store.Seated root given trail (.parameter p) position) :
    store.Seated root given (.key "type" :: trail) (.type p.type) (.ofParameter p) := by
  cases h with
  | @inside steps path n _ content _ htrail hplace hcontent hkeeps =>
    cases hkeeps with
    | @parameter i j _ hp =>
      have hposition : content.position (.parameter i j) = .ofParameter p := by
        simp [TypeContent.position, hp]
      exact hposition ▸ child htrail hplace hcontent (TypeContent.child?_parameter hp) rfl

/-- An item of a list, or a field of a constructor. -/
theorem part (h : store.Seated root given trail layout position) (htype : ∀ n, layout ≠ .type n)
    (hproperties : ∀ members, layout ≠ .properties members)
    (hparameter : ∀ p, layout ≠ .parameter p) {part : Step × Layout} (hpart : part ∈ layout.parts) :
    store.Seated root given (part.1 :: trail) part.2 .plain := by
  cases h with
  | type _ _ => exact absurd rfl (htype _)
  | @inside steps path n _ content _ htrail hplace hcontent hkeeps =>
    have hinside : ∀ {step : Step} {layout : Layout}, content.Keeps (path ++ [step]) layout →
        store.Seated root given (step :: trail) layout .plain := fun hkeeps =>
      .inside (by rw [List.reverse_cons, htrail, List.append_assoc]) hplace hcontent hkeeps
    cases hkeeps with
    | scalar => cases hpart
    | properties _ => exact absurd rfl (hproperties _)
    | parameter _ => exact absurd rfl (hparameter _)
    | elements hnodes =>
      obtain ⟨i, m, hm, rfl⟩ := Layout.exists_of_mem_items hpart
      have hchild : content.child? (.element i) = some m := by simp [TypeContent.child?, hnodes, hm]
      exact child htrail hplace hcontent hchild rfl
    | members hnodes =>
      obtain ⟨i, m, hm, rfl⟩ := Layout.exists_of_mem_items hpart
      have hchild : content.child? (.member i) = some m := by simp [TypeContent.child?, hnodes, hm]
      exact child htrail hplace hcontent hchild rfl
    | arguments hnodes =>
      obtain ⟨i, m, hm, rfl⟩ := Layout.exists_of_mem_items hpart
      have hchild : content.child? (.argument i) = some m := by
        simp [TypeContent.child?, hnodes, hm]
      exact child htrail hplace hcontent hchild rfl
    | constructors hlist =>
      obtain ⟨i, c, hc, rfl⟩ := Layout.exists_of_mem_items hpart
      exact hinside (.constructor hlist hc)
    | constructor hlist hc =>
      obtain rfl | rfl : part = _ ∨ part = _ := by simpa [Layout.parts] using hpart
      · exact hinside .scalar
      · exact hinside (.parameters hlist hc)
    | parameters hlist hc =>
      obtain ⟨j, p, hp, rfl⟩ := Layout.exists_of_mem_items hpart
      exact hinside (.parameter (by simp [TypeContent.parameter?, hlist, hc, hp]))

end Inside

end Store.Seated

end TypeDescription
