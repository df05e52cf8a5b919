import TypeDescription.Literal.Generate
import TypeDescription.Proofs.Literal.Layout

/-!
# How data is put together

The data of a type is put together from a few steps: containers are allocated, fields
are inserted, and the data of other types is made at their places.
`Generation.Composes` is a property of steps that go through some spots of a walk.  It
holds of the single steps, sequences keep it, and a list or a table is gone into.  Then it
holds of all that makes the data of a type, if it holds where the types inside are made
(`Composes.fill`).

Where that is may be known by more than the spot.  A `Seating` relates places to
positions and goes along with the layout.
-/

namespace TypeDescription.Generation

/-- A property of steps that go through some spots. -/
structure Composes (store : Store) (P : ∀ α : Type, List Spot → Generation α → Prop) : Prop where
  pure : ∀ {α : Type} (a : α), P α [] (Pure.pure a)
  bind : ∀ {α β : Type} {here here' : List Spot} {m : Generation α} {f : α → Generation β},
    P α here m → (∀ a, P β here' (f a)) → P β (here ++ here') (m >>= f)
  allocate : ∀ c, P (Value Expression) [] (allocate c)
  /-- What a data object begins with is not inserted again. -/
  insert : ∀ target key v, key ∉ ["kind", "modifiers", "initializer"] →
    P Unit [] (insert target key v)
  /-- A scalar is passed by. -/
  scalar : ∀ {α : Type} {trail : Trail} {here : List Spot} {step : Generation α},
    P α here step → P α ((trail, .scalar) :: here) step
  /-- A list or a table is gone into. -/
  inside : ∀ {α : Type} {trail : Trail} {layout : Layout} {step : Generation α},
    layout ≠ .scalar → (∀ n, layout ≠ .type n) → P α (store.inside (trail, layout)) step →
      P α [(trail, layout)] step

/-- A relation between places and positions that goes along with lists and tables. -/
structure Seating (seat : Trail → Layout → Position → Prop) : Prop where
  property : ∀ {trail members position}, seat trail (.properties members) position →
    ∀ member ∈ members,
      seat (.key member.name :: trail) (.type member.type) (.ofProperty member)
  parameter : ∀ {trail p position}, seat trail (.parameter p) position →
    seat (.key "type" :: trail) (.type p.type) (.ofParameter p)
  part : ∀ {trail layout position}, seat trail layout position → (∀ n, layout ≠ .type n) →
    (∀ members, layout ≠ .properties members) → (∀ p, layout ≠ .parameter p) →
      ∀ part ∈ layout.parts, seat (part.1 :: trail) part.2 .plain

section Composes

variable {store : Store} {P : ∀ α : Type, List Spot → Generation α → Prop} {here : List Spot}
  {trail : Trail}

/-- What follows does not go through any spots. -/
theorem Composes.andThen (C : Composes store P) {α β : Type} {m : Generation α}
    {f : α → Generation β} (hm : P α here m) (hf : ∀ a, P β [] (f a)) : P β here (m >>= f) :=
  List.append_nil here ▸ C.bind hm hf

theorem Composes.mapM (C : Composes store P) {α β : Type} {f : α → Generation β} {l : List α}
    (h : List.Forall₂ (fun spot a => P β [spot] (f a)) here l) : P (List β) here (l.mapM f) := by
  induction h with
  | nil => exact C.pure []
  | cons hhead _ ih =>
    rw [List.mapM_cons]
    exact C.bind hhead fun b => C.andThen ih fun bs => C.pure (b :: bs)

theorem forall₂_items {α : Type} {rel : Step × Layout → α → Prop} (item : α → Layout) (l : List α)
    (h : ∀ a step, (step, item a) ∈ Layout.items item l → rel (step, item a) a) :
    List.Forall₂ rel (Layout.items item l) l := by
  have hindexed : List.Forall₂ (fun (part : α × Nat) a => part.1 = a) l.zipIdx
      (l.zipIdx.map Prod.fst) :=
    List.forall₂_map_right_iff.2 (List.forall₂_same.2 fun _ _ => rfl)
  rw [List.zipIdx_map_fst] at hindexed
  refine List.forall₂_map_left_iff.2 ?_
  have hmem := (List.forall₂_and_left _ _).2 ⟨fun part hpart => hpart, hindexed⟩
  refine hmem.imp fun part a hpart => ?_
  obtain ⟨hpart, rfl⟩ := hpart
  exact h _ _ (List.mem_map_of_mem (f := fun part => (Step.ofIndex part.2, item part.1)) hpart)

theorem Composes.array (C : Composes store P) {α : Type} (item : α → Layout)
    {make : α → Generation (Value Expression)} (l : List α)
    (hmake : ∀ a step, (step, item a) ∈ Layout.items item l →
      P _ [(step :: trail, item a)] (make a)) :
    P _ ((Layout.items item l).map fun part => (part.1 :: trail, part.2)) (array make l) := by
  refine C.andThen (C.mapM ?_) fun items => C.allocate _
  exact List.forall₂_map_left_iff.2 (forall₂_items item l hmake)

/-! ## The data of types -/

variable {seat : Trail → Layout → Position → Prop}
  {child : NodeRef → Position → Generation (Value Expression)} {position : Position}

/-- The property holds where a type is made at its position. -/
def AtSeats (P : ∀ α : Type, List Spot → Generation α → Prop)
    (seat : Trail → Layout → Position → Prop)
    (child : NodeRef → Position → Generation (Value Expression)) : Prop :=
  ∀ n position trail, seat trail (.type n) position → P _ [(trail, .type n)] (child n position)

theorem Composes.list (C : Composes store P) (S : Seating seat) (hchild : AtSeats P seat child)
    {nodes : List NodeRef} (hseat : seat trail (.types nodes) position) :
    P _ [(trail, .types nodes)] (list child nodes) := by
  refine C.inside nofun nofun (C.array .type nodes fun n step hpart => ?_)
  exact hchild n _ _ (S.part hseat nofun nofun nofun _ hpart)

theorem Composes.properties (C : Composes store P) (S : Seating seat)
    (hchild : AtSeats P seat child) {members : List Member}
    (hseat : seat trail (.properties members) position) :
    P _ [(trail, .properties members)] (properties child members) := by
  refine C.inside nofun nofun (C.andThen (C.mapM ?_) fun entries => C.allocate _)
  refine List.forall₂_map_left_iff.2 (List.forall₂_map_left_iff.2 (List.forall₂_same.2 ?_))
  intro member hmember
  exact C.andThen (hchild _ _ _ (S.property hseat member hmember)) fun v => C.pure _

theorem Composes.parameter (C : Composes store P) (S : Seating seat)
    (hchild : AtSeats P seat child) {p : Member} (hseat : seat trail (.parameter p) position) :
    P _ [(trail, .parameter p)] (parameter child p) := by
  have htype := hchild p.type (.ofParameter p) (.key "type" :: trail) (S.parameter hseat)
  exact C.inside nofun nofun
    (C.scalar (C.scalar (C.andThen htype fun type => C.allocate _)))

theorem Composes.constructor (C : Composes store P) (S : Seating seat)
    (hchild : AtSeats P seat child) {c : Constructor}
    (hseat : seat trail (.constructor c) position) :
    P _ [(trail, .constructor c)] (constructor child c) := by
  have hinside : seat (.key "parameters" :: trail) (.parameters c.parameters) .plain :=
    S.part hseat nofun nofun nofun (.key "parameters", .parameters c.parameters)
      (List.mem_cons_of_mem _ List.mem_cons_self)
  have hparameters : P _ [(.key "parameters" :: trail, .parameters c.parameters)]
      (Generation.array (Generation.parameter child) c.parameters) := by
    refine C.inside nofun nofun (C.array .parameter _ fun p step hpart => ?_)
    exact C.parameter S hchild (S.part hinside nofun nofun nofun _ hpart)
  exact C.inside nofun nofun
    (C.scalar (C.andThen hparameters fun parameters => C.allocate _))

theorem Composes.constructors (C : Composes store P) (S : Seating seat)
    (hchild : AtSeats P seat child) {l : List Constructor}
    (hseat : seat trail (.constructors l) position) :
    P _ [(trail, .constructors l)] (Generation.array (Generation.constructor child) l) := by
  refine C.inside nofun nofun (C.array .constructor l fun c step hpart => ?_)
  exact C.constructor S hchild (S.part hseat nofun nofun nofun _ hpart)

/-- Each field of a type is made where it stands. -/
theorem Composes.fields (C : Composes store P) (S : Seating seat) (hchild : AtSeats P seat child)
    (content : TypeContent)
    (hseat : ∀ field ∈ content.fields, seat (.key field.1 :: trail) field.2 .plain) :
    List.Forall₂ (fun field part => field.1 = part.1 ∧
        field.1 ∉ ["kind", "modifiers", "initializer"] ∧
          P _ [(.key field.1 :: trail, field.2)] part.2)
      content.fields (fields child content) := by
  have hscalar : ∀ {trail' : Trail} (v : Value Expression),
      P _ [(trail', .scalar)] (Pure.pure v) := fun v => C.scalar (C.pure v)
  cases content with
  | object name members =>
    have hproperties := hseat ("properties", .properties members) (by simp [TypeContent.fields])
    exact .cons ⟨rfl, by simp, hscalar _⟩
      (.cons ⟨rfl, by simp, C.properties S hchild hproperties⟩ .nil)
  | classType content =>
    have hproperties := hseat ("properties", .properties content.properties)
      (by simp [TypeContent.fields])
    have hconstructors := hseat ("constructors", .constructors content.constructors)
      (by simp [TypeContent.fields])
    refine .cons ⟨rfl, by simp, hscalar _⟩ (.cons ⟨rfl, by simp, C.properties S hchild hproperties⟩
      (.cons ⟨rfl, by simp, C.constructors S hchild hconstructors⟩ ?_))
    show List.Forall₂ _ (content.base.toList.map _) (content.base.toList.map _)
    rw [List.forall₂_map_left_iff, List.forall₂_map_right_iff, List.forall₂_same]
    intro base hbase
    have hfield : ("extends", Layout.type base) ∈ (TypeContent.classType content).fields :=
      List.mem_append_right _ (List.mem_map_of_mem hbase)
    exact ⟨rfl, by simp, hchild base _ _ (hseat _ hfield)⟩
  | tuple elements =>
    have helements := hseat ("elementTypes", .types elements) List.mem_cons_self
    exact .cons ⟨rfl, by simp, C.list S hchild helements⟩ .nil
  | union members =>
    have hmembers := hseat ("types", .types members) List.mem_cons_self
    exact .cons ⟨rfl, by simp, C.list S hchild hmembers⟩ .nil
  | stringLiteral value => exact .cons ⟨rfl, by simp, hscalar _⟩ .nil
  | numberLiteral value => exact .cons ⟨rfl, by simp, hscalar _⟩ .nil
  | reference name arguments =>
    have harguments := hseat ("arguments", .types arguments) (by simp [TypeContent.fields])
    exact .cons ⟨rfl, by simp, hscalar _⟩ (.cons ⟨rfl, by simp, C.list S hchild harguments⟩ .nil)
  | _ => exact .nil

/-- A data object is filled field by field. -/
theorem Composes.fill (C : Composes store P) (S : Seating seat) (hchild : AtSeats P seat child)
    (target : Value Expression) (content : TypeContent)
    (hseat : ∀ field ∈ content.fields, seat (.key field.1 :: trail) field.2 .plain) :
    P _ (content.fields.map fun field => (.key field.1 :: trail, field.2))
      (fill child target content) := by
  have hfields := C.fields S hchild content hseat
  unfold Generation.fill
  generalize Generation.fields child content = parts, content.fields = list at hfields ⊢
  induction hfields with
  | nil => exact C.pure _
  | cons hfield _ ih =>
    obtain ⟨hname, hkey, hmake⟩ := hfield
    exact C.bind (C.andThen hmake fun v => C.insert target _ v (hname ▸ hkey)) fun _ => ih

/-- The data object of a literal string or number is filled without a walk. -/
theorem Composes.fill_of_isLiteral (C : Composes store P) {content : TypeContent}
    (h : content.kind.isLiteral = true) (target : Value Expression) :
    P _ [] (Generation.fill child target content) := by
  have hvalue : ∀ v : Value Expression, P _ [] ([("value", (Pure.pure v : Generation _))].forM
      fun part => do Generation.insert target part.1 (← part.2)) := fun v =>
    C.andThen (C.andThen (C.pure v) fun v => C.insert target "value" v (by simp)) fun _ => C.pure _
  cases content with
  | stringLiteral value => exact hvalue _
  | numberLiteral value => exact hvalue _
  | _ => cases h

end Composes

end TypeDescription.Generation
