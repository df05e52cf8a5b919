import TypeDescription.Proofs.Reflected.Asking
import TypeDescription.Proofs.Reflected.WarmCache

/-!
# Notices of new nodes

A call warns and reports usage for the nodes that it adds to the cache (`Reflector.news`),
once for each and for nothing else: `Program.notices` is what is due for a list of nodes.
The nodes are made in the order in which the depth-first walk of the type comes to the types,
so the warnings come in that order; usage is reported after the arguments of a reference were
walked, so it comes in another one.

`Reflection.Recounts` says so of a step, and sequences keep it.  It takes the survey of the
findings that the step asks for along, as `Goes` does.
-/

namespace TypeDescription

namespace Reflector

/-! ## New nodes -/

/-- A node that is cached for its identity. -/
def heldNode? (r : Reflector) (n : NodeRef) : Option TypeNode :=
  (r.store.node? n).filter fun node => r.cached? node.id == some n

/-- The nodes that were added to the cache, in the order in which they were made. -/
def news (r r' : Reflector) : List TypeNode :=
  (List.range' r.store.size (r'.store.size - r.store.size)).filterMap r'.heldNode?

/-- What is cached is in the store. -/
def InStore (r : Reflector) : Prop :=
  ∀ id n, r.cache.lookup id = some n → n < r.store.size

section News

open Reflection (shelled filled)

variable {σ : Type} {r r' r'' : Reflector} {n : NodeRef} {id : TypeId} {s t : Reflecting σ}
  {content : TypeContent}

/-- The keys of the cache. -/
theorem met_keys (r : Reflector) : r.Met (r.cache.map Prod.fst) := by
  intro id
  constructor
  · intro hid
    obtain ⟨entry, hentry, rfl⟩ := List.mem_map.1 hid
    cases hlookup : r.cache.lookup entry.1 with
    | some n => exact ⟨n, rfl⟩
    | none => simpa using List.lookup_eq_none_iff.1 hlookup entry hentry
  · rintro ⟨n, hn⟩
    by_contra hid
    have hnone : r.cache.lookup id = none := List.lookup_eq_none_iff.2 fun entry hentry =>
      bne_iff_ne.2 fun heq : id = entry.1 =>
        hid (List.mem_map.2 ⟨entry, hentry, heq.symm⟩)
    rw [hnone] at hn
    cases hn

theorem heldNode?_of_lookup {found : Option TypeContent}
    (hnode : r.store.node? n = some ⟨id, found⟩) (hn : r.cache.lookup id = some n) :
    r.heldNode? n = some ⟨id, found⟩ := by
  unfold heldNode? cached?
  rw [hnode, Option.filter_some]
  dsimp only
  rw [hn, beq_self_eq_true, if_pos rfl]

/-- What a step adds leaves the nodes that are held. -/
theorem Adds.heldNode?_eq (h : r.Adds r') (hn : n < r.store.size) :
    r'.heldNode? n = r.heldNode? n := by
  have hcached : ∀ id, (r'.cached? id == some n) = (r.cached? id == some n) := by
    intro id
    rw [Bool.eq_iff_iff, beq_iff_eq, beq_iff_eq]
    constructor
    · intro hnew
      exact (h.new _ n hnew).resolve_right (Nat.not_le.2 hn)
    · exact h.lookup _ n
  unfold heldNode?
  rw [h.node?_eq n hn]
  simp only [hcached]

theorem news_self (r : Reflector) : r.news r = [] := by
  simp [news]

theorem news_trans (h : r.Adds r') (h' : r'.Adds r'') : r.news r'' = r.news r' ++ r'.news r'' := by
  have hle := h.size_le
  have hle' := h'.size_le
  have hmiddle : r.store.size + (r'.store.size - r.store.size) = r'.store.size := by omega
  have hsum : r''.store.size - r.store.size =
    (r'.store.size - r.store.size) + (r''.store.size - r'.store.size) := by omega
  unfold news
  rw [hsum, ← List.range'_append_1, hmiddle, List.filterMap_append]
  congr 1
  refine List.filterMap_congr fun n hn => h'.heldNode?_eq ?_
  exact hmiddle ▸ (List.mem_range'_1.1 hn).2

theorem InStore.add (hr : r.InStore) (node : TypeNode) :
    InStore { r with store := (r.store.add node).2 } := by
  intro id n hn
  show n < (r.store.add node).2.size
  rw [Store.size_add]
  exact Nat.lt_succ_of_lt (hr id n hn)

theorem InStore.shelled (hin : s.reflector.InStore) (id : TypeId) :
    (shelled id s).reflector.InStore := by
  intro other n hn
  show n < (s.reflector.store.add ⟨id, none⟩).2.size
  rw [Store.size_add]
  by_cases heq : other = id
  · subst heq
    obtain rfl := Option.some.inj ((Cache.lookup_put_self _ _ _).symm.trans hn)
    exact Nat.lt_succ_self _
  · exact Nat.lt_succ_of_lt (hin other n ((Cache.lookup_put_of_ne _ heq).symm.trans hn))

/-- An added node that is not cached is no news. -/
theorem news_add (hr : r.InStore) (node : TypeNode) :
    r.news { r with store := (r.store.add node).2 } = [] := by
  have hone : (r.store.add node).2.size - r.store.size = 1 := by
    rw [Store.size_add]
    exact Nat.add_sub_cancel_left _ _
  unfold news
  dsimp only
  rw [hone, List.range'_one, List.filterMap_cons]
  unfold heldNode? cached?
  dsimp only
  rw [Store.node?_add_self, Option.filter_some]
  split_ifs with hlookup
  · exact absurd (hr _ _ (beq_iff_eq.1 hlookup)) (Nat.lt_irrefl _)
  · rfl

/-- The news of going one level down: the filled shell, and what came after it. -/
theorem news_filled (h : (shelled id s).reflector.Adds t.reflector) :
    s.reflector.news (filled s.reflector.store.size content t).reflector =
      ⟨id, some content⟩ :: (shelled id s).reflector.news t.reflector := by
  have hshell := h.node? (Store.node?_add_self s.reflector.store ⟨id, none⟩)
  have hlookup := h.lookup id _ (Cache.lookup_put_self s.reflector.cache id s.reflector.store.size)
  have hself : (filled s.reflector.store.size content t).reflector.heldNode?
      s.reflector.store.size = some ⟨id, some content⟩ :=
    heldNode?_of_lookup (Store.node?_fill_self hshell content) hlookup
  have hsize := h.size_le
  simp only [shelled, Store.size_add] at hsize
  have hsplit : t.reflector.store.size - s.reflector.store.size =
      (t.reflector.store.size - (s.reflector.store.size + 1)) + 1 := by omega
  unfold news
  simp only [shelled, Store.size_add]
  have hfilled : (filled s.reflector.store.size content t).reflector.store.size =
      t.reflector.store.size := Store.size_fill _ _ _
  rw [hfilled, hsplit, List.range'_succ, List.filterMap_cons, hself]
  dsimp only
  congr 1
  refine List.filterMap_congr fun n hn => ?_
  have hne : n ≠ s.reflector.store.size := Nat.ne_of_gt (List.mem_range'_1.1 hn).1
  unfold heldNode?
  rw [show (filled s.reflector.store.size content t).reflector.store.node? n = _ from
    Store.node?_fill_of_ne content hne]
  rfl

end News

end Reflector

/-! ## What is due for nodes -/

namespace Program

/-- What is to be reported for new nodes: a warning for each that is not understood, and the
symbol of the declaration for each reference to one that is written as a reference. -/
def notices (p : Program) (request : Request) (nodes : List TypeNode) : Report String where
  warnings := (nodes.filter fun node => node.kind? == some .unsupported).map fun node =>
    p.host.warning request node.id
  referenced := (nodes.filter fun node => node.kind? == some .reference).filterMap fun node =>
    (p.host.declaration? node.id).bind p.host.usedSymbol?

variable (p : Program) (request : Request)

theorem warnings_notices_append (nodes nodes' : List TypeNode) :
    (p.notices request (nodes ++ nodes')).warnings =
      (p.notices request nodes).warnings ++ (p.notices request nodes').warnings := by
  simp [notices]

theorem referenced_notices_append (nodes nodes' : List TypeNode) :
    (p.notices request (nodes ++ nodes')).referenced =
      (p.notices request nodes).referenced ++ (p.notices request nodes').referenced := by
  simp [notices]

/-- For a single node what is due is what its walk reports for its kind. -/
theorem notices_singleton (id : TypeId) (content : TypeContent) :
    p.notices request [⟨id, some content⟩] = p.host.notes request id content.kind := by
  unfold notices TypeHost.notes
  simp only [List.filter_cons, List.filter_nil, TypeNode.kind?, Option.map_some,
    beq_iff_eq, Option.some.injEq]
  congr 1
  · split_ifs <;> rfl
  · split_ifs
    · rw [List.filterMap_cons, List.filterMap_nil]
      dsimp only
      cases (p.host.declaration? id).bind p.host.usedSymbol? <;> rfl
    · rfl

/-- The host tells the literals. -/
theorem exists_literalContent? {id : TypeId} (hflags : (p.host.typeFlags id).isPerPosition = true) :
    ∃ content, Reflection.literalContent? p.host id (p.host.typeFlags id) = some content := by
  obtain ⟨kind, hkind, hliteral⟩ := Reflector.tellsLiterals_host p id hflags
  unfold literalNode at hkind
  cases htold : Reflection.literalContent? p.host id (p.host.typeFlags id) with
  | some content => exact ⟨content, rfl⟩
  | none =>
    rw [htold] at hkind
    obtain rfl := Option.some.inj hkind
    cases hliteral

end Program

/-! ## Walks -/

namespace Reflection

open Reflector (Adds news_self news_trans news_add news_filled)

/-- What a successful step that asks for some findings leaves.  It reports what is due for the
nodes that it added to the cache, and its own; and these nodes are those of the types that
the survey of the findings comes to. -/
structure Recounts (p : Program) (request : Request) (d : Nat) (here : List (Finding TypeId))
    (own : Report String) (s t : Reflecting String) : Prop where
  inStore : t.reflector.InStore
  adds : s.reflector.Adds t.reflector
  warnings : t.report.warnings = s.report.warnings ++
    ((p.notices request (s.reflector.news t.reflector)).warnings ++ own.warnings)
  referenced : t.report.referenced.Perm (s.report.referenced ++
    ((p.notices request (s.reflector.news t.reflector)).referenced ++ own.referenced))
  survey : ∀ met rest visits, s.reflector.Met met →
    p.host.Surveys met (here.map (Prod.mk d) ++ rest) visits →
      ∃ met' mine later, visits = mine ++ later ∧ t.reflector.Met met' ∧
        p.host.Surveys met' rest later ∧
          mine.map Prod.snd = (s.reflector.news t.reflector).map fun node => .type node.id

/-- A step that recounts what it did, if it succeeds. -/
def Reports (p : Program) (request : Request) (d : Nat) (here : List (Finding TypeId))
    (own : Report String) (α : Type) (P : α → Prop) (step : Reflection String α) : Prop :=
  ∀ s a t, s.reflector.InStore → step.run.run s = (.ok a, t) →
    P a ∧ Recounts p request d here own s t

section Recounts

variable {p : Program} {request : Request} {d : Nat} {here here' : List (Finding TypeId)}
  {own : Report String} {s t u : Reflecting String}

/-- A step that asks for nothing and caches nothing reports its own. -/
theorem Recounts.quiet (hin : t.reflector.InStore) (hadds : s.reflector.Adds t.reflector)
    (hcache : t.reflector.cache = s.reflector.cache) (hnews : s.reflector.news t.reflector = [])
    (hwarnings : t.report.warnings = s.report.warnings ++ own.warnings)
    (hreferenced : t.report.referenced = s.report.referenced ++ own.referenced) :
    Recounts p request d [] own s t where
  inStore := hin
  adds := hadds
  warnings := by
    rw [hnews]
    exact hwarnings
  referenced := by
    rw [hnews]
    exact .of_eq hreferenced
  survey met rest visits M S := by
    refine ⟨met, [], visits, rfl, ?_, S, ?_⟩
    · unfold Reflector.Met
      rw [hcache]
      exact M
    · rw [hnews]
      rfl

/-- A step that leaves the reflector. -/
theorem Recounts.same (hin : s.reflector.InStore) (hsame : t.reflector = s.reflector)
    (hwarnings : t.report.warnings = s.report.warnings ++ own.warnings)
    (hreferenced : t.report.referenced = s.report.referenced ++ own.referenced) :
    Recounts p request d [] own s t := by
  refine .quiet (hsame ▸ hin) (hsame ▸ .refl _) (congrArg _ hsame) ?_ hwarnings hreferenced
  rw [hsame, news_self]

/-- A step that does nothing. -/
theorem Recounts.refl (hin : s.reflector.InStore) : Recounts p request d [] .empty s s :=
  .same hin rfl (List.append_nil _).symm (List.append_nil _).symm

/-- A step that adds a complete node and does not cache it. -/
theorem Recounts.added (hin : s.reflector.InStore) (id : TypeId) (content : TypeContent)
    (ht : t = { s with reflector := { s.reflector with
      store := (s.reflector.store.add ⟨id, some content⟩).2 } }) :
    Recounts p request d [] .empty s t := by
  subst ht
  refine .quiet (hin.add _) (Reflector.adds_add s.reflector id content) rfl (news_add hin _) ?_ ?_
  · exact (List.append_nil _).symm
  · exact (List.append_nil _).symm

theorem Recounts.trans (h : Recounts p request d here .empty s t)
    (h' : Recounts p request d here' own t u) : Recounts p request d (here ++ here') own s u where
  inStore := h'.inStore
  adds := h.adds.trans h'.adds
  warnings := by
    rw [h'.warnings, h.warnings, news_trans h.adds h'.adds, p.warnings_notices_append]
    simp [Report.empty]
  referenced := by
    rw [news_trans h.adds h'.adds, p.referenced_notices_append]
    refine h'.referenced.trans ((h.referenced.append_right _).trans (.of_eq ?_))
    simp [Report.empty]
  survey met rest visits M S := by
    rw [List.map_append, List.append_assoc] at S
    obtain ⟨met', mine, later, rfl, M', S', hmine⟩ := h.survey met _ visits M S
    obtain ⟨met'', mine', later', rfl, M'', S'', hmine'⟩ := h'.survey met' rest later M' S'
    refine ⟨met'', mine ++ mine', later', (List.append_assoc ..).symm, M'', S'', ?_⟩
    rw [news_trans h.adds h'.adds, List.map_append, List.map_append, hmine, hmine']

/-- What was added to the cache is what the survey of the findings comes to. -/
theorem Recounts.exists_surveys (h : Recounts p request d here own s t) {met : List TypeId}
    (M : s.reflector.Met met) :
    ∃ visits, p.host.Surveys met (here.map (Prod.mk d)) visits ∧
      visits.map Prod.snd = (s.reflector.news t.reflector).map fun node => .type node.id := by
  obtain ⟨visits, S⟩ := p.exists_surveys met (here.map (Prod.mk d) ++ [])
  obtain ⟨_, mine, later, rfl, _, S', hmine⟩ := h.survey met [] visits M S
  obtain rfl := S'.done_inv
  rw [List.append_nil, List.append_nil] at S
  exact ⟨mine, S, hmine⟩

/-- A step that asks for nothing adds nothing to the cache. -/
theorem Recounts.news_eq_nil (h : Recounts p request d [] own s t) :
    s.reflector.news t.reflector = [] := by
  obtain ⟨visits, S, hmine⟩ := h.exists_surveys s.reflector.met_keys
  obtain rfl := S.done_inv
  exact List.map_eq_nil_iff.1 hmine.symm

end Recounts

/-! ### Descriptions -/

/-- To name a declaration with a symbol is to report the symbol, if the declaration is written
as a reference. -/
theorem run_named {τ σ α : Type} {host : TypeHost τ σ} (request : Request) {declaration : τ}
    {symbol : σ} (id : TypeId) (g : Expression → α)
    (hsymbol : host.symbol? declaration = some symbol) (s : Reflecting σ) :
    ∃ name, (identifierFor host request declaration id >>= fun name => pure (g name)).run.run s =
      (.ok (g name), { s with report := { s.report with
        referenced := s.report.referenced ++ (host.usedSymbol? declaration).toList } }) := by
  unfold identifierFor TypeHost.usedSymbol? TypeHost.aliasTarget?
  rw [hsymbol]
  cases host.referenceName? declaration with
  | none =>
    refine ⟨.identifier (host.symbolName symbol) request.scope, ?_⟩
    simp only [Option.bind_none, Option.toList_none, List.append_nil]
    rfl
  | some name =>
    have htarget : (if (host.symbolFlags symbol).contains .aliasSymbol then
          (host.aliasedSymbol? symbol).getD symbol else symbol) =
        (if (host.symbolFlags symbol).contains .aliasSymbol then host.aliasedSymbol? symbol
          else none).getD symbol := by
      split_ifs <;> rfl
    refine ⟨.identifier name request.scope, ?_⟩
    simp only [Option.bind_some, Option.map_some, Option.toList_some, ← htarget]
    rfl

/-- The steps of a description recount what they did. -/
theorem asking_reports (p : Program) (request : Request) (d : Nat) :
    Asking p.host request (Reports p request d) where
  pure h := by
    intro s a t hin hrun
    cases hrun
    exact ⟨h, .refl hin⟩
  bind h hnext := by
    intro s b u hin hrun
    obtain ⟨a, t, hfirst, hlast⟩ := ok_of_run_bind hrun
    obtain ⟨-, R⟩ := h s a t hin hfirst
    obtain ⟨hQ, R'⟩ := hnext a t b u R.inStore hlast
    exact ⟨hQ, R.trans R'⟩
  missing _ _ _ := by
    intro s a t _ hrun
    cases hrun
  normalizeMembers members := by
    intro s a t hin hrun
    have ht : t = { s with reflector := { s.reflector with
        store := (s.reflector.store.normalizeUnion members).2 } } := by
      cases hrun
      rfl
    refine ⟨trivial, ?_⟩
    rcases s.reflector.store.normalizeUnion_cases members with ⟨_, heq, _⟩ | ⟨_, heq, _⟩
    · rw [heq] at ht
      subst ht
      exact .refl hin
    · rw [heq] at ht
      exact .added hin _ _ ht
  unsupported type hP := by
    intro s a t hin hrun
    cases hrun
    exact ⟨hP, .same hin rfl rfl (List.append_nil _).symm⟩
  named id g hsymbol hP := by
    intro s a t hin hrun
    obtain ⟨name, hnamed⟩ := run_named request id g hsymbol s
    cases hnamed.symm.trans hrun
    exact ⟨hP name, .same hin rfl (List.append_nil _).symm rfl⟩

/-! ### Types -/

section Types

variable {p : Program} {request : Request} {d : Nat} {here : List (Finding TypeId)}
  {own : Report String} {s s' t : Reflecting String} {id : TypeId} {content : TypeContent}

/-- Nothing is done for a type that is passed by. -/
private theorem Recounts.passed (hpass : ∀ met, s.reflector.Met met → p.host.Passes met id)
    (R : Recounts p request d [] .empty s t) : Recounts p request d [.type id] .empty s t :=
  { R with survey := fun met rest visits M S =>
      R.survey met rest visits M (S.pass_inv (hpass met M)) }

/-- What was reported one level down, with what is due for the type itself. -/
theorem Recounts.reports_filled (R : Recounts p request d here own (shelled id s) t)
    (hown : own.warnings = [] ∨ here = []) (hnotes : p.host.notes request id content.kind = own) :
    let news := s.reflector.news (filled s.reflector.store.size content t).reflector
    t.report.warnings = s.report.warnings ++ (p.notices request news).warnings ∧
      t.report.referenced.Perm (s.report.referenced ++ (p.notices request news).referenced) := by
  intro news
  have hnews : news = [⟨id, some content⟩] ++ (shelled id s).reflector.news t.reflector :=
    news_filled R.adds
  rw [hnews, p.warnings_notices_append, p.referenced_notices_append, p.notices_singleton, hnotes]
  refine ⟨R.warnings.trans (congrArg (s.report.warnings ++ ·) ?_),
    R.referenced.trans (.append_left _ List.perm_append_comm)⟩
  -- a type that warns has nothing inside that could warn before it
  rcases hown with hown | rfl
  · rw [hown, List.append_nil, List.nil_append]
  · rw [R.news_eq_nil]
    exact (List.append_nil _).symm

/-- What was added to the cache one level down, with the type itself. -/
theorem Recounts.surveys_filled (R : Recounts p request d here own (shelled id s) t)
    {met : List TypeId} (M : s.reflector.Met met) :
    ∃ visits, p.host.Surveys (id :: met) (here.map (Prod.mk d)) visits ∧
      .type id :: visits.map Prod.snd =
        (s.reflector.news (filled s.reflector.store.size content t).reflector).map fun node =>
          .type node.id := by
  obtain ⟨visits, S, hvisits⟩ := R.exists_surveys (met_shelled M)
  refine ⟨visits, S, ?_⟩
  rw [news_filled R.adds, List.map_cons, hvisits]

/-- A type that is described one level down. -/
private theorem Recounts.nested (hnone : s.reflector.cache.lookup id = none)
    (hflags : ¬ (p.host.typeFlags id).isPerPosition = true)
    (R : Recounts p request (d + 1) (p.host.inside id) own (shelled id s) t)
    (hown : own.warnings = [] ∨ p.host.inside id = [])
    (hnotes : p.host.notes request id content.kind = own) :
    Recounts p request d [.type id] .empty s (filled s.reflector.store.size content t) := by
  obtain ⟨hwarnings, hreferenced⟩ := R.reports_filled hown hnotes
  refine ⟨?_, adds_filled hnone R.adds, ?_, ?_, fun met rest visits M S => ?_⟩
  · intro other n hn
    show n < (t.reflector.store.fill _ content).size
    rw [Store.size_fill]
    exact R.inStore other n hn
  · exact hwarnings.trans (congrArg _ (List.append_nil _).symm)
  · exact hreferenced.trans (.of_eq (congrArg _ (List.append_nil _).symm))
  · have hpass : ¬ p.host.Passes met id := by
      refine not_or.2 ⟨fun hmet => ?_, hflags⟩
      obtain ⟨n, hn⟩ := (M _).1 hmet
      cases hnone.symm.trans hn
    obtain ⟨later, rfl, Sinside⟩ := S.enter_inv hpass
    obtain ⟨met', mine, later', rfl, M', S', hmine⟩ :=
      R.survey _ rest later (met_shelled M) Sinside
    refine ⟨met', (d, .type id) :: mine, later', rfl, M', S', ?_⟩
    rw [news_filled R.adds, List.map_cons, List.map_cons, hmine]

/-- To obtain the node of a type is to recount it, if its description does. -/
theorem reports_typeNode {describe : Reflection String TypeContent}
    (hdescribe : ¬ (p.host.typeFlags id).isPerPosition = true →
      Describing p.host request (Reports p request (d + 1)) id (p.host.inside id) describe) :
    Reports p request d [.type id] .empty NodeRef (fun _ => True)
      (typeNode p.host request id describe) := by
  intro s n t hin hrun
  refine ⟨trivial, ?_⟩
  cases hlookup : s.reflector.cache.lookup id with
  | some m =>
    cases (run_typeNode_of_lookup hlookup).symm.trans hrun
    exact .passed (fun met M => .inl ((M id).2 ⟨_, hlookup⟩)) (.refl hin)
  | none =>
    by_cases hflags : (p.host.typeFlags id).isPerPosition = true
    · obtain ⟨content, htold⟩ := p.exists_literalContent? hflags
      cases (run_typeNode_told hlookup hflags htold).symm.trans hrun
      exact .passed (fun met M => .inr hflags) (.added hin _ content rfl)
    · rw [run_typeNode_nested hlookup hflags] at hrun
      obtain ⟨_, content, u, hdescribed, rfl, rfl⟩ := described_of_run_nested hrun
      obtain ⟨own, hown, h⟩ := hdescribe hflags
      obtain ⟨hnotes, R⟩ := h (shelled id s) content u (hin.shelled id) hdescribed
      exact R.nested hlookup hflags hown hnotes

/-- The walk of a type recounts what it did. -/
theorem reports_reflect (p : Program) (request : Request) (room : Nat) :
    ∀ d id, Reports p request d [.type id] .empty NodeRef (fun _ => True)
      (reflect p.host request room id) := by
  induction room with
  | zero =>
    intro d id
    refine reports_typeNode fun _ => ⟨.empty, .inl rfl, fun s a t _ hrun => ?_⟩
    cases hrun
  | succ room ih =>
    intro d id
    exact reports_typeNode fun hflags =>
      (asking_reports p request (d + 1)).content (ih (d + 1)) hflags

/-- A type that is not understood is reflected wherever a level is left. -/
theorem exists_run_reflect_unsupported {τ σ : Type} {host : TypeHost τ σ} {request : Request}
    {type : τ} {s : Reflecting σ} (room : Nat)
    (hkind : (host.outline? request.scope type).map (Outline.kind host) = some .unsupported)
    (hlt : s.reflector.depth.depth < s.reflector.depth.limit) :
    ∃ n t, (reflect host request (room + 1) type).run.run s = (.ok n, t) := by
  cases hlookup : s.reflector.cache.lookup (host.typeId type) with
  | some n => exact ⟨n, s, run_typeNode_of_lookup hlookup⟩
  | none =>
    by_cases hflags : (host.typeFlags type).isPerPosition = true
    · obtain ⟨report, hrun⟩ := run_typeNode_literal hlookup hflags
      exact ⟨_, _, hrun⟩
    · obtain ⟨o, ho, hkind⟩ := Option.map_eq_some_iff.1 hkind
      obtain ⟨content, childless, rfl⟩ : ∃ content childless, o = .leaf content childless := by
        cases o with
        | leaf content childless => exact ⟨content, childless, rfl⟩
        | _ => cases hkind
      obtain ⟨report, hrun⟩ : Gives (Reflection.content host request
          (reflect host request room) type (host.typeId type) (host.typeFlags type))
            (shelled (host.typeId type) s) content (shelled (host.typeId type) s).reflector :=
        (describes_content _ _ _).2 ⟨_, ho, [], _, rfl, rfl, rfl⟩
      exact ⟨_, _, (run_typeNode_nested hlookup hflags).trans (run_nested_ok hlt hrun)⟩

end Types

end Reflection

/-! ## Calls -/

namespace Reflector

open Reflection (shelled filled Recounts reports_reflect asking_reports
  exists_run_reflect_unsupported)

/-- What a call reports is what is due for the nodes that it added to the cache. -/
structure Noticed (p : Program) (request : Request) (r : Reflector) (answer : Reflected String) :
    Prop where
  warnings : answer.report.warnings = (p.notices request (r.news answer.reflector)).warnings
  referenced : answer.report.referenced.Perm
    (p.notices request (r.news answer.reflector)).referenced

section Calls

variable {p : Program} {request : Request} {r : Reflector} {id : TypeId} {n : NodeRef}

/-- A reported symbol is that of the declaration of a new reference. -/
theorem Noticed.exists_node {answer : Reflected String} (N : Noticed p request r answer)
    {symbol : String} (hsymbol : symbol ∈ answer.report.referenced) :
    ∃ node ∈ r.news answer.reflector, node.kind? = some .reference ∧
      ∃ declaration, p.host.declaration? node.id = some declaration ∧
        p.host.usedSymbol? declaration = some symbol := by
  obtain ⟨node, hnode, hused⟩ := List.mem_filterMap.1 (N.referenced.mem_iff.1 hsymbol)
  obtain ⟨hnews, hkind⟩ := List.mem_filter.1 hnode
  obtain ⟨declaration, hdeclaration, hused⟩ := Option.bind_eq_some_iff.1 hused
  exact ⟨node, hnews, beq_iff_eq.1 hkind, declaration, hdeclaration, hused⟩

theorem Reached.inStore {allowed : Reflector → Call TypeId → Prop} {limit : UInt32}
    (hr : Reached p.host allowed limit r) : r.InStore := by
  obtain ⟨old, C⟩ := hr.consistent Function.injective_id
  intro id n hn
  obtain ⟨content, hnode⟩ := C.node? (.inl hn)
  exact Store.lt_size_of_node? hnode

/-- A successful call for a type. -/
theorem noticed_reflectType (hin : r.InStore) (hr : r.AtRest)
    (hok : (r.reflectType p.host request id).outcome = .ok n) :
    Noticed p request r (r.reflectType p.host request id) ∧
      ∃ visits, p.host.Surveys (r.cache.map Prod.fst) [(0, .type id)] visits ∧
        visits.map Prod.snd =
          (r.news (r.reflectType p.host request id).reflector).map fun node => .type node.id := by
  unfold reflectType at hok ⊢
  obtain ⟨s, _, ⟨m, hwalked, hrun⟩ | ⟨e, hrun⟩⟩ :=
    hr.run_cases (Reflection.keepsBalance_reflect p.host request r.room id)
  · obtain ⟨-, R⟩ := reports_reflect p request r.room 0 id ⟨r, .empty⟩ m s hin hwalked
    rw [hrun]
    refine ⟨⟨?_, ?_⟩, R.exists_surveys r.met_keys⟩
    · exact R.warnings.trans (List.append_nil _)
    · exact R.referenced.trans (.of_eq (List.append_nil _))
  · rw [hrun] at hok
    cases hok

/-- A successful call for a class. -/
theorem noticed_reflectClass (hin : r.InStore) (hr : r.AtRest)
    (hok : (r.reflectClass p.host request id).outcome = .ok n) :
    Noticed p request r (r.reflectClass p.host request id) ∧
      match r.cachedClass? id with
      | some _ => r.news (r.reflectClass p.host request id).reflector = []
      | none => ∃ visits, p.host.Surveys (id :: r.cache.map Prod.fst)
            ((p.host.classFindings id).map (Prod.mk 1)) visits ∧
          .type id :: visits.map Prod.snd =
            (r.news (r.reflectClass p.host request id).reflector).map fun node =>
              .type node.id := by
  cases hcached : r.cachedClass? id with
  | some node =>
    rw [reflectClass_of_cached hcached]
    refine ⟨⟨?_, ?_⟩, r.news_self⟩
    · rw [r.news_self]
      rfl
    · rw [r.news_self]
      exact .refl []
  | none =>
    rw [reflectClass_of_not_cached hcached] at hok ⊢
    dsimp only
    obtain ⟨s, _, ⟨m, hwalked, hrun⟩ | ⟨e, hrun⟩⟩ :=
      hr.run_cases
        (Reflection.keepsBalance_class p.host request (r.room - 1) id (p.host.typeId id))
    · obtain ⟨_, content, t, hdescribed, rfl, rfl⟩ := Reflection.described_of_run_nested hwalked
      have hclass : Reflection.Reports p request 1 (p.host.classFindings id) .empty TypeContent
          (fun content => content.kind = .classType) (Reflection.classContent p.host
            (Reflection.reflect p.host request (r.room - 1)) id (p.host.typeId id)) :=
        (asking_reports p request 1).classContent (reports_reflect p request (r.room - 1) 1)
      obtain ⟨hkind, R⟩ := hclass (shelled id ⟨r, .empty⟩) content t
        (hin.shelled (s := ⟨r, .empty⟩) id) hdescribed
      have hnotes : p.host.notes request id content.kind = .empty := by
        rw [hkind]
        rfl
      obtain ⟨hwarnings, hreferenced⟩ := R.reports_filled (.inl rfl) hnotes
      rw [hrun]
      exact ⟨⟨hwarnings, hreferenced⟩, R.surveys_filled r.met_keys⟩
    · rw [hrun] at hok
      cases hok

end Calls

/-- In every state that calls lead to, a further call that succeeds reports for each node that
it adds to the cache what is due, once, and nothing else.  These nodes are those of the types
that the depth-first walk of the type comes to and that were not cached before, in that order;
so nothing that stands beside a type that is not understood is left out.  Such a type cannot
make a walk fail either: it is reflected wherever a level is left. -/
theorem noticed_of_reached {p : Program} {allowed : Reflector → Call TypeId → Prop}
    {limit : UInt32} {r : Reflector} (hr : Reached p.host allowed limit r) (request : Request)
    (id : TypeId) :
    (∀ n, (r.reflectType p.host request id).outcome = .ok n →
      Noticed p request r (r.reflectType p.host request id) ∧
        ∃ visits, p.host.Surveys (r.cache.map Prod.fst) [(0, .type id)] visits ∧
          visits.map Prod.snd =
            (r.news (r.reflectType p.host request id).reflector).map fun node => .type node.id) ∧
    (∀ n, (r.reflectClass p.host request id).outcome = .ok n →
      Noticed p request r (r.reflectClass p.host request id) ∧
        match r.cachedClass? id with
        | some _ => r.news (r.reflectClass p.host request id).reflector = []
        | none => ∃ visits, p.host.Surveys (id :: r.cache.map Prod.fst)
              ((p.host.classFindings id).map (Prod.mk 1)) visits ∧
            .type id :: visits.map Prod.snd =
              (r.news (r.reflectClass p.host request id).reflector).map fun node =>
                .type node.id) ∧
    ∀ (s : Reflecting String) (room : Nat),
      (p.host.outline? request.scope id).map (Outline.kind p.host) = some .unsupported →
        s.reflector.depth.depth < s.reflector.depth.limit →
          ∃ n t, (Reflection.reflect p.host request (room + 1) id).run.run s = (.ok n, t) := by
  refine ⟨fun n hok => ?_, fun n hok => ?_, fun s room hkind hlt => ?_⟩
  · exact noticed_reflectType hr.inStore hr.atRest hok
  · exact noticed_reflectClass hr.inStore hr.atRest hok
  · exact exists_run_reflect_unsupported room hkind hlt

/-- A program with a union of a type parameter, a class that is known by an alias, and another
type parameter. -/
def gallery : Program where
  types := [
    ⟨⟨1⟩, .union [⟨2⟩, ⟨3⟩, ⟨4⟩, ⟨2⟩], none, none, none⟩,
    ⟨⟨2⟩, .typeParameter, none, some "T", none⟩,
    ⟨⟨3⟩, .declared false [] [], some "Frame", none, none⟩,
    ⟨⟨4⟩, .typeParameter, none, some "U", none⟩]
  symbols := Table.ofList [
    ("Frame", ⟨"Frame", ⟨none, .aliasSymbol, none, [], none, some true, some "lib.Frame", []⟩,
      .none⟩),
    ("lib.Frame", ⟨"Frame", ⟨none, .classSymbol, none, [], none, none, none, []⟩, .none⟩)]

/-- One parameter was reflected before.  The union warns once about the other one, and reports
the class behind the alias. -/
theorem noticed_gallery :
    let r := (ofLimit 256).after gallery.host (.type default ⟨4⟩)
    let answer := r.reflectType gallery.host default ⟨1⟩
    answer.outcome = .ok 1 ∧
      (r.news answer.reflector).map TypeNode.id = [⟨1⟩, ⟨2⟩, ⟨3⟩] ∧
      answer.report.warnings = [gallery.host.warning default ⟨2⟩] ∧
      answer.report.referenced = ["lib.Frame"] ∧
      Noticed gallery default r answer ∧
      ∃ visits, gallery.host.Surveys (r.cache.map Prod.fst) [(0, .type ⟨1⟩)] visits ∧
        visits.map Prod.snd = (r.news answer.reflector).map fun node => .type node.id := by
  intro r answer
  have hr : Reached gallery.host (fun _ _ => True) 256 r := .after .start trivial
  have hok : answer.outcome = .ok 1 := by decide +kernel
  exact ⟨hok, by decide +kernel, by decide +kernel, by decide +kernel,
    (noticed_of_reached hr default ⟨1⟩).1 1 hok⟩

end Reflector

end TypeDescription
