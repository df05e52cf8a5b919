import TypeDescription.Proofs.Reflected.Notices

/-!
# Symbols behind aliases

Each symbol that a call reports as referred to is that of a declaration, or what that stands
for if it is an alias.  An alias is followed for one step only: if it stands for another
alias, the other alias is reported and not the declaration at the end.

A failed call reports too what it came to before it failed; so the property of steps,
`Reflection.Refers`, does not ask how they end.
-/

namespace TypeDescription

namespace TypeHost

/-- The end of the chain of aliases that starts at a symbol. -/
inductive AliasEnd {τ σ : Type} (host : TypeHost τ σ) : σ → σ → Prop
  | here {symbol : σ} : host.aliasTarget? symbol = none → AliasEnd host symbol symbol
  | step {symbol next last : σ} : host.aliasTarget? symbol = some next →
      AliasEnd host next last → AliasEnd host symbol last

section AliasEnd

variable {τ σ : Type} {host : TypeHost τ σ} {start last : σ}

theorem AliasEnd.aliasTarget?_eq (h : host.AliasEnd start last) :
    host.aliasTarget? last = none := by
  induction h with
  | here h => exact h
  | step _ _ ih => exact ih

/-- One step comes to the end of a chain exactly if it does not come to another alias. -/
theorem aliasEnd_iff :
    host.AliasEnd start ((host.aliasTarget? start).getD start) ↔
      host.aliasTarget? ((host.aliasTarget? start).getD start) = none := by
  refine ⟨AliasEnd.aliasTarget?_eq, fun hend => ?_⟩
  cases htarget : host.aliasTarget? start with
  | none => exact .here htarget
  | some next =>
    rw [htarget] at hend
    exact .step htarget (.here hend)

end AliasEnd

end TypeHost

namespace Reflection

/-- A step that reports, however it ends, no symbols but those of declarations. -/
def Refers (p : Program) {α : Type} (step : Reflection String α) : Prop :=
  ∀ s, ∀ symbol ∈ (step.run.run s).2.report.referenced,
    symbol ∈ s.report.referenced ∨ ∃ declaration, p.host.usedSymbol? declaration = some symbol

section Refers

variable {p : Program} {request : Request} {s : Reflecting String} {id : TypeId} {α β : Type}

theorem Refers.bind {step : Reflection String α} {next : α → Reflection String β}
    (h : Refers p step) (hnext : ∀ a, Refers p (next a)) : Refers p (step >>= next) := by
  intro s symbol hsymbol
  rcases hrun : step.run.run s with ⟨_ | a, t⟩
  · rw [run_bind_of_error hrun] at hsymbol
    exact h s symbol (hrun ▸ hsymbol)
  · rw [run_bind_of_ok hrun] at hsymbol
    rcases hnext a t symbol hsymbol with hfirst | hfound
    · exact h s symbol (hrun ▸ hfirst)
    · exact .inr hfound

/-- The steps of a description report no other symbols. -/
theorem asking_refers (p : Program) (request : Request) :
    Asking p.host request fun _ _ _ _ step => Refers p step where
  pure _ := fun _ _ h => .inl h
  bind h hnext := h.bind hnext
  missing _ _ _ := fun _ _ h => .inl h
  normalizeMembers _ := fun _ _ h => .inl h
  unsupported _ _ := fun _ _ h => .inl h
  named id g hsymbol _ := by
    intro s symbol h
    obtain ⟨name, hnamed⟩ := run_named request id g hsymbol s
    rw [hnamed] at h
    exact (List.mem_append.1 h).imp_right fun h => ⟨_, Option.mem_toList.1 h⟩

/-- What is reported one level down is all that is reported. -/
theorem refers_nested (id : TypeId) {describe : Reflection String TypeContent}
    (h : Refers p describe) : Refers p (nested id describe) := by
  intro s symbol hsymbol
  by_cases hlt : s.reflector.depth.depth < s.reflector.depth.limit
  · have hinner := h (shelled id s) symbol
    rcases hrun : describe.run.run (shelled id s) with ⟨_ | content, t⟩
    · rw [run_nested_error hlt hrun] at hsymbol
      rw [hrun] at hinner
      exact hinner hsymbol
    · rw [run_nested_ok hlt hrun] at hsymbol
      rw [hrun] at hinner
      exact hinner hsymbol
  · rw [run_nested_full hlt] at hsymbol
    exact .inl hsymbol

theorem refers_typeNode {describe : Reflection String TypeContent}
    (hdescribe : ¬ (p.host.typeFlags id).isPerPosition = true → Refers p describe) :
    Refers p (typeNode p.host request id describe) := by
  intro s symbol hsymbol
  cases hlookup : s.reflector.cache.lookup id with
  | some n =>
    rw [run_typeNode_of_lookup hlookup] at hsymbol
    exact .inl hsymbol
  | none =>
    by_cases hflags : (p.host.typeFlags id).isPerPosition = true
    · obtain ⟨content, htold⟩ := p.exists_literalContent? hflags
      rw [run_typeNode_told hlookup hflags htold] at hsymbol
      exact .inl hsymbol
    · rw [run_typeNode_nested hlookup hflags] at hsymbol
      exact refers_nested _ (hdescribe hflags) s symbol hsymbol

theorem refers_reflect (p : Program) (request : Request) (room : Nat) :
    ∀ id, Refers p (reflect p.host request room id) := by
  induction room with
  | zero =>
    intro id
    exact refers_typeNode fun _ _ _ h => .inl h
  | succ room ih =>
    intro id
    refine refers_typeNode fun hflags => ?_
    obtain ⟨_, _, h⟩ := (asking_refers p request).content ih hflags
    exact h

theorem refers_class (p : Program) (request : Request) (room : Nat) (id : TypeId) :
    Refers p (nested (p.host.typeId id)
      (classContent p.host (reflect p.host request room) id (p.host.typeId id))) :=
  refers_nested _ ((asking_refers p request).classContent (refers_reflect p request room))

end Refers

end Reflection

namespace Reflector

open Reflection (Refers refers_reflect refers_class)

/-- What a call reports is what its walk does. -/
private theorem used_of_run {p : Program} {r : Reflector} {walk : Reflection String NodeRef}
    (hwalk : Refers p walk) {symbol : String} (hsymbol : symbol ∈ (r.run walk).report.referenced) :
    ∃ declaration, p.host.usedSymbol? declaration = some symbol :=
  (hwalk ⟨{ r with journal := [] }, .empty⟩ symbol hsymbol).resolve_left List.not_mem_nil

/-- A reported symbol is that of a declaration, and if the call succeeds, of one that a new
reference refers to. -/
private theorem used_of_noticed {p : Program} {request : Request} {r : Reflector}
    {answer : Reflected String}
    (hnoticed : ∀ n, answer.outcome = .ok n → Noticed p request r answer)
    {symbol : String} (hsymbol : symbol ∈ answer.report.referenced)
    (hused : ∃ declaration, p.host.usedSymbol? declaration = some symbol) :
    ∃ declaration, p.host.usedSymbol? declaration = some symbol ∧
      ∀ n, answer.outcome = .ok n → ∃ node ∈ r.news answer.reflector,
        node.kind? = some .reference ∧ p.host.declaration? node.id = some declaration := by
  cases houtcome : answer.outcome with
  | error e =>
    obtain ⟨declaration, hused⟩ := hused
    exact ⟨declaration, hused, fun _ => nofun⟩
  | ok n =>
    obtain ⟨node, hnode, hkind, declaration, hdeclaration, hused⟩ :=
      (hnoticed n houtcome).exists_node hsymbol
    exact ⟨declaration, hused, fun _ _ => ⟨node, hnode, hkind, hdeclaration⟩⟩

/-- Each symbol that a call reports belongs to a declaration that is written as a reference,
and if the call succeeds, that a new reference node refers to.  It is the symbol of the
declaration, or if that is an alias, what the alias stands for; and it is the end of the chain
of aliases exactly if it is not an alias that stands for something. -/
theorem referenced_symbol {p : Program} {allowed : Reflector → Call TypeId → Prop}
    {limit : UInt32} {r : Reflector} (hr : Reached p.host allowed limit r) {c : Call TypeId}
    {outcome : Except ReflectError NodeRef} {report : Report String}
    (hcall : (r.call p.host c).1 = some (outcome, report)) {symbol : String}
    (hsymbol : symbol ∈ report.referenced) :
    ∃ declaration start, (p.host.referenceName? declaration).isSome = true ∧
      p.host.symbol? declaration = some start ∧
      symbol = (p.host.aliasTarget? start).getD start ∧
      (p.host.AliasEnd start symbol ↔ p.host.aliasTarget? symbol = none) ∧
      ∀ n, outcome = .ok n → ∃ node ∈ r.news (r.after p.host c),
        node.kind? = some .reference ∧ p.host.declaration? node.id = some declaration := by
  have hused : ∃ declaration, p.host.usedSymbol? declaration = some symbol ∧
      ∀ n, outcome = .ok n → ∃ node ∈ r.news (r.after p.host c),
        node.kind? = some .reference ∧ p.host.declaration? node.id = some declaration := by
    cases c with
    | type request type =>
      cases hcall
      exact used_of_noticed (fun n hok => (noticed_reflectType hr.inStore hr.atRest hok).1) hsymbol
        (used_of_run (refers_reflect p request r.room type) hsymbol)
    | classType request type =>
      cases hcall
      refine used_of_noticed (fun n hok => (noticed_reflectClass hr.inStore hr.atRest hok).1)
        hsymbol ?_
      cases hcached : r.cachedClass? (p.host.typeId type) with
      | some n =>
        rw [reflectClass_of_cached hcached] at hsymbol
        cases hsymbol
      | none =>
        rw [reflectClass_of_not_cached hcached] at hsymbol
        exact used_of_run (refers_class p request _ type) hsymbol
    | reset => cases hcall
  obtain ⟨declaration, hused, hnode⟩ := hused
  obtain ⟨name, hname, hused⟩ := Option.bind_eq_some_iff.1 hused
  obtain ⟨start, hstart, rfl⟩ := Option.map_eq_some_iff.1 hused
  exact ⟨declaration, start, by rw [hname]; rfl, hstart, rfl, TypeHost.aliasEnd_iff, hnode⟩

/-- A program with two imported classes, one of them exported again on the way. -/
def imports : Program where
  types := [
    ⟨⟨1⟩, .object false 0 [], some "app.Foo", none, some "Foo"⟩,
    ⟨⟨2⟩, .object false 0 [], some "app.Bar", none, some "Bar"⟩]
  symbols := Table.ofList [
    ("app.Foo", ⟨"Foo", ⟨none, .aliasSymbol, none, [], none, some true, some "kit.Foo", []⟩,
      .none⟩),
    ("kit.Foo", ⟨"Foo", ⟨none, .aliasSymbol, none, [], none, none, some "lib.Foo", []⟩, .none⟩),
    ("lib.Foo", ⟨"Foo", ⟨none, .classSymbol, none, [], none, none, none, []⟩, .none⟩),
    ("app.Bar", ⟨"Bar", ⟨none, .aliasSymbol, none, [], none, some true, some "lib.Bar", []⟩,
      .none⟩),
    ("lib.Bar", ⟨"Bar", ⟨none, .classSymbol, none, [], none, none, none, []⟩, .none⟩)]

/-- The class that was imported from where it is declared is reported itself. -/
theorem referenced_symbol_imports :
    ∃ outcome report, ((ofLimit 256).call imports.host (.type default ⟨2⟩)).1 =
        some (outcome, report) ∧ report.referenced = ["lib.Bar"] ∧
      ∃ declaration start, (imports.host.referenceName? declaration).isSome = true ∧
        imports.host.symbol? declaration = some start ∧
        "lib.Bar" = (imports.host.aliasTarget? start).getD start ∧
        (imports.host.AliasEnd start "lib.Bar" ↔ imports.host.aliasTarget? "lib.Bar" = none) ∧
        ∀ n, outcome = .ok n →
          ∃ node ∈ (ofLimit 256).news ((ofLimit 256).after imports.host (.type default ⟨2⟩)),
            node.kind? = some .reference ∧
              imports.host.declaration? node.id = some declaration := by
  have hr : Reached imports.host (fun _ _ => True) 256 (ofLimit 256) := .start
  have hcall : ((ofLimit 256).call imports.host (.type default ⟨2⟩)).1 = some (_, _) := rfl
  exact ⟨_, _, hcall, by decide +kernel, referenced_symbol hr hcall (by decide +kernel)⟩

/-- Of the class that was exported again only the alias on the way is reported; the chain of
aliases ends at another symbol. -/
theorem alias_reported_imports :
    ((ofLimit 256).reflectType imports.host default ⟨1⟩).report.referenced = ["kit.Foo"] ∧
      imports.host.symbol? ⟨1⟩ = some "app.Foo" ∧
      imports.host.aliasTarget? "kit.Foo" = some "lib.Foo" ∧
      imports.host.AliasEnd "app.Foo" "lib.Foo" ∧
      ¬ imports.host.AliasEnd "app.Foo" "kit.Foo" := by
  have hnext : imports.host.aliasTarget? "kit.Foo" = some "lib.Foo" := by decide +kernel
  refine ⟨by decide +kernel, by decide +kernel, hnext, ?_, fun hend => ?_⟩
  · exact .step (by decide +kernel) (.step hnext (.here (by decide +kernel)))
  · cases hend.aliasTarget?_eq.symm.trans hnext

end Reflector

end TypeDescription
