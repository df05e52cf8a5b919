import TypeDescription.Proofs.Reflected.Survey

/-!
# What a description asks for and what it reports

A description asks for the findings inside its type, in order, and reports at most one
thing itself, last: that the type is not understood, or that a symbol is referred to.
`Reflection.Asking` is a property of steps that comes with the findings they ask for and
the report of their own.  It holds of single steps, and sequences keep it; then it holds
of whole descriptions (`Asking.content`, `Asking.classContent`), given that it holds of
the walks of the types inside.
-/

namespace TypeDescription

variable {τ σ : Type}

/-! ## Reports -/

namespace TypeHost

/-- The declaration that a type refers to: the target of a reference, else the type
itself. -/
def declaration? (host : TypeHost τ σ) (type : τ) : Option τ :=
  if (host.objectFlags type).contains .reference then host.referenceTarget? type else some type

/-- The symbol that an alias stands for, one step along. -/
def aliasTarget? (host : TypeHost τ σ) (symbol : σ) : Option σ :=
  if (host.symbolFlags symbol).contains .aliasSymbol then host.aliasedSymbol? symbol else none

/-- The symbol that is reported for a declaration, if it is written as a reference. -/
def usedSymbol? (host : TypeHost τ σ) (declaration : τ) : Option σ :=
  (host.referenceName? declaration).bind fun _ =>
    (host.symbol? declaration).map fun symbol => (host.aliasTarget? symbol).getD symbol

/-- The warning about a type that is not understood. -/
def warning (host : TypeHost τ σ) (request : Request) (type : τ) : Warning :=
  ⟨"unknown type, " ++ host.display type, request.location⟩

/-- What is reported for a type itself when its node is made, by the kind of the node. -/
def notes (host : TypeHost τ σ) (request : Request) (type : τ) (kind : TypeKind) : Report σ where
  warnings := if kind = .unsupported then [host.warning request type] else []
  referenced :=
    if kind = .reference then ((host.declaration? type).bind host.usedSymbol?).toList else []

/-! ## Findings in classes -/

/-- A parameter: its type, or that the host owes it. -/
def parameterFinding (host : TypeHost τ σ) (owner : τ) (symbol : σ) : Finding τ :=
  match host.typeOfSymbol? symbol with
  | some type => .type type
  | none => .missing .parameterType (host.typeId owner)

/-- The properties of a class itself. -/
def classProperties (host : TypeHost τ σ) (type : τ) : List σ :=
  (host.declaredProperties type).filter fun member => (host.symbolFlags member).contains .property

/-- What is inside a class when it is reflected as one, in the order in which it is asked
for. -/
def classFindings (host : TypeHost τ σ) (type : τ) : List (Finding τ) :=
  (host.baseTypes type).head?.toList.map .type ++
    match host.symbol? type with
    | none => [.missing .symbol (host.typeId type)]
    | some symbol =>
        (host.classProperties type).map (host.propertyFinding type) ++
          (host.constructSignatures symbol).flatMap fun signature =>
            signature.parameters.map (host.parameterFinding type)

/-! ## What is inside, by the first flag -/

/-- What is inside a type whose first flag is the one given. -/
def insideBy (host : TypeHost τ σ) (type : τ) (first : Option TypeFlags) : List (Finding τ) :=
  if first = some .union then (host.unionMembers type).map .type
  else if first = some .object then
    if (host.objectFlags type).contains .reference then
      (host.typeArguments type).map .type ++ host.owed type
    else
      host.objectFindings type
  else []

theorem inside_eq_insideBy {host : TypeHost τ σ} {type : τ}
    (hflags : ¬ (host.typeFlags type).isPerPosition = true) :
    host.inside type = host.insideBy type (host.typeFlags type).first? := by
  have hunion : TypeFlags.union ≠ .object := by decide
  simp only [Bool.not_eq_true] at hflags
  unfold inside insideBy
  simp only [isReference, isObject, isUnion, hflags, Bool.not_false, Bool.true_and, beq_iff_eq,
    Bool.and_eq_true]
  split_ifs <;> simp_all

end TypeHost

namespace Reflection

/-! ## Steps that ask -/

/-- A property of steps with the findings that they ask for, the report of their own and
what holds of their result. -/
structure Asking (host : TypeHost τ σ) (request : Request)
    (G : List (Finding τ) → Report σ → ∀ α : Type, (α → Prop) → Reflection σ α → Prop) : Prop where
  pure : ∀ {α : Type} {P : α → Prop} {a : α}, P a → G [] .empty α P (Pure.pure a)
  bind : ∀ {α β : Type} {Q : β → Prop} {here here' : List (Finding τ)} {own : Report σ}
    {step : Reflection σ α} {next : α → Reflection σ β}, G here .empty α (fun _ => True) step →
      (∀ a, G here' own β Q (next a)) → G (here ++ here') own β Q (step >>= next)
  /-- A datum that is missing ends the walk. -/
  missing : ∀ {α β : Type} {Q : β → Prop} (what : HostDatum) (id : TypeId)
    (next : α → Reflection σ β), G [.missing what id] .empty β Q (require what id none >>= next)
  normalizeMembers : ∀ members : List NodeRef,
    G [] .empty (List NodeRef) (fun _ => True) (normalizeMembers members)
  unsupported : ∀ {P : TypeContent → Prop} (type : τ), P .unsupported →
    G [] ⟨[host.warning request type], []⟩ TypeContent P (unsupported host request type)
  /-- A declaration with a symbol is named. -/
  named : ∀ {α : Type} {P : α → Prop} {declaration : τ} {symbol : σ} (id : TypeId)
    (g : Expression → α), host.symbol? declaration = some symbol → (∀ name, P (g name)) →
      G [] ⟨[], (host.usedSymbol? declaration).toList⟩ α P
        (identifierFor host request declaration id >>= fun name => Pure.pure (g name))

section Asking

variable {host : TypeHost τ σ} {request : Request}
  {G : List (Finding τ) → Report σ → ∀ α : Type, (α → Prop) → Reflection σ α → Prop}
  {child : τ → Reflection σ NodeRef} {type : τ} {α β : Type} {here : List (Finding τ)}

/-- A step whose result is put into something. -/
theorem Asking.map (hG : Asking host request G) {Q : β → Prop} {step : Reflection σ α} {g : α → β}
    (h : G here .empty α (fun _ => True) step) (hQ : ∀ a, Q (g a)) :
    G here .empty β Q (step >>= fun a => Pure.pure (g a)) := by
  rw [← here.append_nil]
  exact hG.bind h fun a => hG.pure (hQ a)

theorem Asking.mapM (hG : Asking host request G) {f : α → Reflection σ β}
    {here : α → List (Finding τ)} (h : ∀ a, G (here a) .empty β (fun _ => True) (f a))
    (l : List α) : G (l.flatMap here) .empty (List β) (fun _ => True) (l.mapM f) := by
  induction l with
  | nil => exact hG.pure trivial
  | cons a l ih =>
    rw [List.mapM_cons, List.flatMap_cons]
    exact hG.bind (h a) fun b => hG.map ih fun _ => trivial

/-- Steps with one finding each. -/
theorem Asking.mapM_map (hG : Asking host request G) {f : α → Reflection σ β} {here : α → Finding τ}
    (h : ∀ a, G [here a] .empty β (fun _ => True) (f a)) (l : List α) :
    G (l.map here) .empty (List β) (fun _ => True) (l.mapM f) := by
  rw [List.map_eq_flatMap]
  exact hG.mapM h l

/-- A datum that is there is not asked for. -/
theorem require_some (what : HostDatum) (id : TypeId) (a : α) (next : α → Reflection σ β) :
    require what id (some a) >>= next = next a :=
  rfl

/-! ## Members -/

theorem Asking.property (hG : Asking host request G)
    (hchild : ∀ inner, G [.type inner] .empty NodeRef (fun _ => True) (child inner)) (symbol : σ) :
    G [host.propertyFinding type symbol] .empty Member (fun _ => True)
      (property host child (host.typeId type) symbol) := by
  unfold Reflection.property TypeHost.propertyFinding
  cases host.typeOfSymbol? symbol with
  | none => exact hG.missing _ _ _
  | some inner => exact hG.map (hchild inner) fun _ => trivial

theorem Asking.parameter (hG : Asking host request G)
    (hchild : ∀ inner, G [.type inner] .empty NodeRef (fun _ => True) (child inner)) (symbol : σ) :
    G [host.parameterFinding type symbol] .empty Member (fun _ => True)
      (parameter host child (host.typeId type) symbol) := by
  unfold Reflection.parameter TypeHost.parameterFinding
  cases host.typeOfSymbol? symbol with
  | none => exact hG.missing _ _ _
  | some inner => exact hG.map (hchild inner) fun _ => trivial

/-! ## Types -/

/-- A step that asks for some findings and reports what is due for a type.  It warns only if it
asks for nothing. -/
def Describing (host : TypeHost τ σ) (request : Request)
    (G : List (Finding τ) → Report σ → ∀ α : Type, (α → Prop) → Reflection σ α → Prop) (type : τ)
    (here : List (Finding τ)) (step : Reflection σ TypeContent) : Prop :=
  ∃ own : Report σ, (own.warnings = [] ∨ here = []) ∧
    G here own TypeContent (fun content => host.notes request type content.kind = own) step

/-- A step that has nothing to report. -/
private theorem describing_silent {step : Reflection σ TypeContent}
    (h : G here .empty TypeContent
      (fun content => host.notes request type content.kind = .empty) step) :
    Describing host request G type here step :=
  ⟨.empty, .inl rfl, h⟩

private theorem Asking.describing_pure (hG : Asking host request G) {content : TypeContent}
    (h : host.notes request type content.kind = .empty) :
    Describing host request G type [] (Pure.pure content) :=
  describing_silent (hG.pure h)

private theorem Asking.describing_unsupported (hG : Asking host request G) :
    Describing host request G type [] (Reflection.unsupported host request type) :=
  ⟨_, .inr rfl, hG.unsupported type rfl⟩

/-- A type that refers to a declaration reports the symbol of that. -/
private theorem Asking.refers (hG : Asking host request G) {declaration : τ} {symbol : σ}
    (id : TypeId) (arguments : List NodeRef)
    (hdeclaration : host.declaration? type = some declaration)
    (hsymbol : host.symbol? declaration = some symbol) :
    G [] ⟨[], (host.usedSymbol? declaration).toList⟩ TypeContent
      (fun content => host.notes request type content.kind =
        ⟨[], (host.usedSymbol? declaration).toList⟩)
      (identifierFor host request declaration id >>= fun name =>
        Pure.pure (TypeContent.reference name arguments)) := by
  refine hG.named id (fun name => TypeContent.reference name arguments) hsymbol fun name => ?_
  show host.notes request type .reference = _
  simp [TypeHost.notes, hdeclaration]

theorem Asking.referenceContent (hG : Asking host request G)
    (hchild : ∀ inner, G [.type inner] .empty NodeRef (fun _ => True) (child inner))
    (href : (host.objectFlags type).contains .reference = true) :
    Describing host request G type ((host.typeArguments type).map .type ++ host.owed type)
      (referenceContent host request child type (host.typeId type)) := by
  have hwalk := hG.mapM_map hchild (host.typeArguments type)
  unfold Reflection.referenceContent TypeHost.owed
  cases htarget : host.referenceTarget? type with
  | none => exact describing_silent (hG.bind hwalk fun _ => hG.missing _ _ _)
  | some target =>
    simp only [require_some]
    by_cases htuple : (host.objectFlags target).contains .tuple = true
    · simp only [if_pos htuple]
      exact describing_silent (hG.bind hwalk fun arguments => hG.pure rfl)
    · simp only [if_neg htuple]
      cases hsymbol : host.symbol? target with
      | none => exact describing_silent (hG.bind hwalk fun _ => hG.missing _ _ _)
      | some symbol =>
        simp only [require_some]
        by_cases hvalue : host.hasValueDeclaration symbol = true
        · simp only [if_pos hvalue]
          have hdeclaration : host.declaration? type = some target := by
            rw [TypeHost.declaration?, if_pos href, htarget]
          exact ⟨_, .inl rfl, hG.bind hwalk fun arguments =>
            hG.refers _ arguments hdeclaration hsymbol⟩
        · simp only [if_neg hvalue]
          exact describing_silent (hG.bind hwalk fun arguments => hG.pure rfl)

theorem Asking.objectContent (hG : Asking host request G)
    (hchild : ∀ inner, G [.type inner] .empty NodeRef (fun _ => True) (child inner))
    (href : ¬ (host.objectFlags type).contains .reference = true) :
    Describing host request G type (host.objectFindings type)
      (objectContent host request child type (host.typeId type)) := by
  unfold Reflection.objectContent TypeHost.objectFindings
  simp only [if_neg href]
  cases hsymbol : host.symbol? type with
  | none => exact describing_silent (hG.missing _ _ _)
  | some symbol =>
    simp only [require_some]
    by_cases hmethod : (host.symbolFlags symbol).contains .method = true
    · simp only [TypeHost.hasShape, hmethod, Bool.not_true, Bool.false_and, Bool.false_eq_true,
        if_false, if_true]
      exact hG.describing_pure rfl
    · by_cases hvalue : host.hasValueDeclaration symbol = true
      · have hdeclaration : host.declaration? type = some type := by
          rw [TypeHost.declaration?, if_neg href]
        simp only [TypeHost.hasShape, hmethod, hvalue, Bool.not_true, Bool.and_false,
          Bool.false_and, Bool.false_eq_true, if_false, if_true]
        exact ⟨_, .inl rfl, hG.refers _ [] hdeclaration hsymbol⟩
      · by_cases hcalls : 0 < host.callSignatureCount type
        · have hne : host.callSignatureCount type ≠ 0 := Nat.ne_of_gt hcalls
          simp only [TypeHost.hasShape, hmethod, hvalue, beq_eq_false_iff_ne.2 hne, hcalls,
            Bool.and_false, Bool.false_eq_true, if_false, if_true]
          exact hG.describing_pure rfl
        · have hzero : host.callSignatureCount type = 0 := by omega
          simp only [TypeHost.hasShape, hmethod, hvalue, hzero, Bool.not_false, Bool.and_self,
            beq_self_eq_true, Nat.lt_irrefl, Bool.false_eq_true, if_false, if_true]
          exact describing_silent (hG.map (hG.mapM_map (hG.property hchild) _) fun members => rfl)

theorem Asking.unionContent (hG : Asking host request G)
    (hchild : ∀ inner, G [.type inner] .empty NodeRef (fun _ => True) (child inner)) :
    Describing host request G type ((host.unionMembers type).map .type)
      (unionContent host child type) := by
  refine describing_silent ?_
  rw [← List.append_nil (List.map _ _)]
  refine hG.bind (hG.mapM_map hchild _) fun nodes => ?_
  exact hG.map (hG.normalizeMembers nodes) fun members => rfl

/-- One flag after the other is asked for. -/
private theorem describing_flag {flags flag : TypeFlags} {rest : List TypeFlags}
    {step more : Reflection σ TypeContent}
    (hstep : Describing host request G type (host.insideBy type (some flag)) step)
    (hmore : Describing host request G type
      (host.insideBy type (rest.find? fun f => flags.contains f)) more) :
    Describing host request G type
      (host.insideBy type ((flag :: rest).find? fun f => flags.contains f))
      (if flags.contains flag then step else more) := by
  by_cases h : flags.contains flag = true
  · rw [List.find?_cons_of_pos h, if_pos h]
    exact hstep
  · rw [List.find?_cons_of_neg h, if_neg h]
    exact hmore

theorem Asking.content (hG : Asking host request G)
    (hchild : ∀ inner, G [.type inner] .empty NodeRef (fun _ => True) (child inner))
    (hflags : ¬ (host.typeFlags type).isPerPosition = true) :
    Describing host request G type (host.inside type)
      (content host request child type (host.typeId type) (host.typeFlags type)) := by
  have hleaf : ∀ {flag} {step : Reflection σ TypeContent}, flag ≠ .union → flag ≠ .object →
      Describing host request G type [] step →
        Describing host request G type (host.insideBy type (some flag)) step := by
    intro flag step hunion hobject h
    simpa only [TypeHost.insideBy, Option.some.injEq, hunion, hobject, if_false] using h
  have hother : TypeFlags.object ≠ .union := by decide
  rw [TypeHost.inside_eq_insideBy hflags]
  unfold Reflection.content TypeFlags.first? TypeFlags.known
  -- one flag after the other, in the order of the tests
  refine describing_flag (hleaf (by decide) (by decide) (hG.describing_pure rfl)) ?_
  refine describing_flag (hleaf (by decide) (by decide) (hG.describing_pure rfl)) ?_
  refine describing_flag (hleaf (by decide) (by decide) (hG.describing_pure rfl)) ?_
  refine describing_flag (hleaf (by decide) (by decide) (hG.describing_pure rfl)) ?_
  refine describing_flag (hleaf (by decide) (by decide) ?_) ?_
  · cases host.booleanLiteral? type with
    | none => exact hG.describing_unsupported
    | some value => cases value <;> exact hG.describing_pure rfl
  refine describing_flag (hleaf (by decide) (by decide) (hG.describing_pure rfl)) ?_
  refine describing_flag (hleaf (by decide) (by decide) (hG.describing_pure rfl)) ?_
  refine describing_flag (hleaf (by decide) (by decide) (hG.describing_pure rfl)) ?_
  refine describing_flag (hleaf (by decide) (by decide) (hG.describing_pure rfl)) ?_
  refine describing_flag (hleaf (by decide) (by decide) (hG.describing_pure rfl)) ?_
  refine describing_flag (hleaf (by decide) (by decide) (hG.describing_pure rfl)) ?_
  refine describing_flag ?_ (describing_flag ?_ ?_)
  · by_cases href : (host.objectFlags type).contains .reference = true
    · simp only [TypeHost.insideBy, Reflection.objectContent, href, if_true, Option.some.injEq,
        hother, if_false]
      exact hG.referenceContent hchild href
    · simp only [TypeHost.insideBy, if_true, Option.some.injEq, hother, if_false, if_neg href]
      exact hG.objectContent hchild href
  · exact hG.unionContent hchild
  · exact hG.describing_unsupported

/-! ## Classes -/

/-- Nothing is reported for a class itself. -/
theorem Asking.classContent (hG : Asking host request G)
    (hchild : ∀ inner, G [.type inner] .empty NodeRef (fun _ => True) (child inner)) :
    G (host.classFindings type) .empty TypeContent (fun content => content.kind = .classType)
      (classContent host child type (host.typeId type)) := by
  have hbase : G ((host.baseTypes type).head?.toList.map .type) .empty (Option NodeRef)
      (fun _ => True) ((host.baseTypes type).head?.mapM child) := by
    cases (host.baseTypes type).head? with
    | none => exact hG.pure trivial
    | some base => exact hG.map (hchild base) fun _ => trivial
  unfold Reflection.classContent TypeHost.classFindings
  refine hG.bind hbase fun base => ?_
  cases host.symbol? type with
  | none => exact hG.missing _ _ _
  | some symbol =>
    simp only [require_some]
    refine hG.bind (hG.mapM_map (hG.property hchild) _) fun properties => ?_
    refine hG.map (hG.mapM (fun signature => ?_) _) fun constructors => rfl
    exact hG.map (hG.mapM_map (hG.parameter hchild) _) fun _ => trivial

end Asking

end Reflection

end TypeDescription
