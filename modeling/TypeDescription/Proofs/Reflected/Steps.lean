import TypeDescription.Reflected.Reflect

/-!
# How a walk is put together

Every description of a type is put together from a few steps: reports, missing
data, cache look-ups, complete nodes, joined unions, and the walks of other
types.  `Reflection.Composes` is a relation between steps that holds of these
and that sequences keep; then it holds of whole descriptions
(`Composes.content`, `Composes.classContent`), and of the walk of a type if
going one level down keeps it (`Composes.reflect`).

A property of single walks is a relation that looks at one side only.
-/

namespace TypeDescription.Reflection

variable {τ σ : Type}

/-- A relation between steps that holds of each single step and that sequences
keep. -/
structure Composes (R : ∀ α : Type, Reflection σ α → Reflection σ α → Prop) : Prop where
  pure : ∀ {α : Type} (a : α), R α (Pure.pure a) (Pure.pure a)
  bind : ∀ {α β : Type} {m m' : Reflection σ α} {f f' : α → Reflection σ β},
    R α m m' → (∀ a, R β (f a) (f' a)) → R β (m >>= f) (m' >>= f')
  throw : ∀ {α : Type} (error : ReflectError), R α (throw error) (throw error)
  note : ∀ f : Report σ → Report σ, R Unit (note f) (note f)
  cached? : ∀ id, R (Option NodeRef) (cached? id) (cached? id)
  addNode : ∀ id content, R NodeRef (addNode ⟨id, some content⟩) (addNode ⟨id, some content⟩)
  normalizeMembers : ∀ members,
    R (List NodeRef) (normalizeMembers members) (normalizeMembers members)

section Composes

variable {R : ∀ α : Type, Reflection σ α → Reflection σ α → Prop}
  {child child' : τ → Reflection σ NodeRef}

private theorem related_ite {α : Type} {c : Prop} [Decidable c] {m₁ m₁' m₂ m₂' : Reflection σ α}
    (h₁ : R α m₁ m₁') (h₂ : R α m₂ m₂') :
    R α (if c then m₁ else m₂) (if c then m₁' else m₂') := by
  split
  · exact h₁
  · exact h₂

/-! ## Single steps -/

theorem Composes.require (hR : Composes R) {α : Type} (what : HostDatum) (id : TypeId)
    (datum : Option α) : R α (require what id datum) (require what id datum) := by
  cases datum with
  | none => exact hR.throw _
  | some a => exact hR.pure a

theorem Composes.mapM (hR : Composes R) {α β : Type} {f f' : α → Reflection σ β} (l : List α)
    (hf : ∀ a, R β (f a) (f' a)) : R (List β) (l.mapM f) (l.mapM f') := by
  induction l with
  | nil => exact hR.pure []
  | cons a l ih =>
    rw [List.mapM_cons, List.mapM_cons]
    exact hR.bind (hf a) fun b => hR.bind ih fun bs => hR.pure (b :: bs)

theorem Composes.optionMapM (hR : Composes R) {α β : Type} {f f' : α → Reflection σ β}
    (o : Option α) (hf : ∀ a, R β (f a) (f' a)) : R (Option β) (o.mapM f) (o.mapM f') := by
  cases o with
  | none => exact hR.pure none
  | some a => exact hR.bind (hf a) fun b => hR.pure (some b)

theorem Composes.unsupported (hR : Composes R) (host : TypeHost τ σ) (request : Request)
    (type : τ) : R TypeContent (unsupported host request type) (unsupported host request type) :=
  hR.bind (hR.note _) fun _ => hR.pure _

theorem Composes.identifierFor (hR : Composes R) (host : TypeHost τ σ) (request : Request)
    (type : τ) (id : TypeId) :
    R Expression (identifierFor host request type id) (identifierFor host request type id) := by
  refine hR.bind (hR.require _ _ _) fun symbol => ?_
  cases host.referenceName? type with
  | none => exact hR.pure _
  | some name => exact hR.bind (hR.note _) fun _ => hR.pure _

theorem Composes.literalContent (hR : Composes R) (host : TypeHost τ σ) (request : Request)
    (type : τ) (flags : TypeFlags) :
    R TypeContent (literalContent host request type flags)
      (literalContent host request type flags) := by
  unfold Reflection.literalContent
  split
  · exact hR.pure _
  · exact hR.unsupported host request type

/-! ## Descriptions -/

theorem Composes.property (hR : Composes R) (host : TypeHost τ σ)
    (hchild : ∀ type, R NodeRef (child type) (child' type)) (owner : TypeId) (symbol : σ) :
    R Member (property host child owner symbol) (property host child' owner symbol) :=
  hR.bind (hR.require _ _ _) fun type => hR.bind (hchild type) fun _ => hR.pure _

theorem Composes.parameter (hR : Composes R) (host : TypeHost τ σ)
    (hchild : ∀ type, R NodeRef (child type) (child' type)) (owner : TypeId) (symbol : σ) :
    R Member (parameter host child owner symbol) (parameter host child' owner symbol) :=
  hR.bind (hR.require _ _ _) fun type => hR.bind (hchild type) fun _ => hR.pure _

theorem Composes.referenceContent (hR : Composes R) (host : TypeHost τ σ) (request : Request)
    (hchild : ∀ type, R NodeRef (child type) (child' type)) (type : τ) (id : TypeId) :
    R TypeContent (referenceContent host request child type id)
      (referenceContent host request child' type id) := by
  refine hR.bind (hR.mapM _ hchild) fun arguments => ?_
  refine hR.bind (hR.require _ _ _) fun target => ?_
  split
  · exact hR.pure _
  · refine hR.bind (hR.require _ _ _) fun symbol => ?_
    split
    · exact hR.bind (hR.identifierFor host request target id) fun name => hR.pure _
    · exact hR.pure _

theorem Composes.objectContent (hR : Composes R) (host : TypeHost τ σ) (request : Request)
    (hchild : ∀ type, R NodeRef (child type) (child' type)) (type : τ) (id : TypeId) :
    R TypeContent (objectContent host request child type id)
      (objectContent host request child' type id) := by
  unfold Reflection.objectContent
  dsimp only
  split
  · exact hR.referenceContent host request hchild type id
  · refine hR.bind (hR.require _ _ _) fun symbol => ?_
    split
    · exact hR.pure _
    · split
      · exact hR.bind (hR.identifierFor host request type id) fun name => hR.pure _
      · split
        · exact hR.pure _
        · exact hR.bind (hR.mapM _ (hR.property host hchild id)) fun properties => hR.pure _

theorem Composes.unionContent (hR : Composes R) (host : TypeHost τ σ)
    (hchild : ∀ type, R NodeRef (child type) (child' type)) (type : τ) :
    R TypeContent (unionContent host child type) (unionContent host child' type) :=
  hR.bind (hR.mapM _ hchild) fun members =>
    hR.bind (hR.normalizeMembers members) fun _ => hR.pure _

theorem Composes.content (hR : Composes R) (host : TypeHost τ σ) (request : Request)
    (hchild : ∀ type, R NodeRef (child type) (child' type)) (type : τ) (id : TypeId)
    (flags : TypeFlags) :
    R TypeContent (content host request child type id flags)
      (content host request child' type id flags) := by
  unfold Reflection.content
  -- one flag after the other, in the order of the tests
  refine related_ite (hR.pure _) (related_ite (hR.pure _) (related_ite (hR.pure _) ?_))
  refine related_ite (hR.pure _) (related_ite ?_ (related_ite (hR.pure _) ?_))
  · split
    · exact hR.pure _
    · exact hR.pure _
    · exact hR.unsupported host request type
  refine related_ite (hR.pure _) (related_ite (hR.pure _) (related_ite (hR.pure _) ?_))
  refine related_ite (hR.pure _) (related_ite (hR.pure _) (related_ite ?_ (related_ite ?_ ?_)))
  · exact hR.objectContent host request hchild type id
  · exact hR.unionContent host hchild type
  · exact hR.unsupported host request type

theorem Composes.constructor (hR : Composes R) (host : TypeHost τ σ)
    (hchild : ∀ type, R NodeRef (child type) (child' type)) (owner : TypeId)
    (signature : Signature σ) :
    R Constructor (constructor host child owner signature)
      (constructor host child' owner signature) :=
  hR.bind (hR.mapM _ (hR.parameter host hchild owner)) fun _ => hR.pure _

theorem Composes.classContent (hR : Composes R) (host : TypeHost τ σ)
    (hchild : ∀ type, R NodeRef (child type) (child' type)) (type : τ) (id : TypeId) :
    R TypeContent (classContent host child type id) (classContent host child' type id) := by
  refine hR.bind (hR.optionMapM _ hchild) fun base => ?_
  refine hR.bind (hR.require _ _ _) fun symbol => ?_
  refine hR.bind (hR.mapM _ (hR.property host hchild id)) fun properties => ?_
  exact hR.bind (hR.mapM _ (hR.constructor host hchild id)) fun constructors => hR.pure _

/-! ## Walks -/

/-- What holds one level down holds of the node of a type. -/
theorem Composes.typeNode (hR : Composes R) (host : TypeHost τ σ) (request : Request) (type : τ)
    {describe describe' : Reflection σ TypeContent}
    (hnested : R NodeRef (nested (host.typeId type) describe)
      (nested (host.typeId type) describe')) :
    R NodeRef (typeNode host request type describe) (typeNode host request type describe') := by
  refine hR.bind (hR.cached? _) fun found => ?_
  cases found with
  | some node => exact hR.pure node
  | none =>
    dsimp only
    split
    · exact hR.bind (hR.literalContent host request type _) fun content => hR.addNode _ content
    · exact hnested

/-- What holds one level down holds of the walk of a type. -/
theorem Composes.reflect (hR : Composes R)
    (hnested : ∀ id describe, R TypeContent describe describe →
      R NodeRef (nested id describe) (nested id describe))
    (host : TypeHost τ σ) (request : Request) (room : Nat) (type : τ) :
    R NodeRef (reflect host request room type) (reflect host request room type) := by
  induction room generalizing type with
  | zero => exact hR.typeNode host request type (hnested _ _ (hR.throw _))
  | succ room ih =>
    exact hR.typeNode host request type (hnested _ _ (hR.content host request ih type _ _))

/-- What holds one level down holds of the walk of a class. -/
theorem Composes.nested_class (hR : Composes R)
    (hnested : ∀ id describe, R TypeContent describe describe →
      R NodeRef (nested id describe) (nested id describe))
    (host : TypeHost τ σ) (request : Request) (room : Nat) (type : τ) (id : TypeId) :
    let child := Reflection.reflect host request room
    R NodeRef (nested id (Reflection.classContent host child type id))
      (nested id (Reflection.classContent host child type id)) :=
  hnested _ _ (hR.classContent host (hR.reflect hnested host request room) type id)

end Composes

end TypeDescription.Reflection
