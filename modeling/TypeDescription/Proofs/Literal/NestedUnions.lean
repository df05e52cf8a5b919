import TypeDescription.Proofs.Literal.Capacity
import TypeDescription.Proofs.Reflected.Walks

/-!
# Nested unions

`nestedUnions` is a program with a union in a union, and so on, around a literal string.
Reflection counts the unions and nothing else, so it can take as many of them as its
limit says (`Reflector.reflect_nestedUnions`).  In the literal each union and the list of
its members are two levels, and the literal string is one more
(`Reflector.literal_nestedUnions_iff`).  With the limits that hold when none are given,
the deepest unions that can be reflected have no literal.
-/

namespace TypeDescription

/-! ## The program -/

/-- The identity of a union, or of the literal string in the innermost one. -/
def nestedId (i : Nat) : TypeId :=
  ⟨UInt32.ofNat (i + 1)⟩

/-- What stands in some unions. -/
def nestedShape (levels i : Nat) : Shape :=
  if i < levels then .union [nestedId (i + 1)] else .stringLiteral "x"

/-- Unions in each other, around a literal string. -/
def nestedUnions (levels : Nat) : Program where
  types := (List.range (levels + 1)).map fun i =>
    ⟨nestedId i, nestedShape levels i, none, none, none⟩
  symbols := Table.empty

/-- The node of a union, or of the literal string. -/
def nestedNode (levels i : Nat) : TypeNode :=
  ⟨nestedId i, some (if i < levels then .union [i + 1] else .stringLiteral "x")⟩

section Host

variable {levels i j : Nat}

theorem nestedId_inj (hi : i + 1 < UInt32.size) (hj : j + 1 < UInt32.size) :
    nestedId i = nestedId j ↔ i = j := by
  refine ⟨fun h => ?_, fun h => h ▸ rfl⟩
  have hvalue : UInt32.ofNat (i + 1) = UInt32.ofNat (j + 1) := congrArg TypeId.value h
  have hnat := congrArg UInt32.toNat hvalue
  rw [UInt32.toNat_ofNat_of_lt' hi, UInt32.toNat_ofNat_of_lt' hj] at hnat
  omega

theorem shape?_nestedUnions (hlevels : levels + 1 < UInt32.size) (hi : i ≤ levels) :
    (nestedUnions levels).shape? (nestedId i) = some (nestedShape levels i) := by
  have hfind : (List.range (levels + 1)).find? (fun j => nestedId j == nestedId i) = some i := by
    rw [List.find?_range_eq_some]
    refine ⟨by simp, List.mem_range.2 (by omega), fun j hj => ?_⟩
    have hne : nestedId j ≠ nestedId i := by
      rw [Ne, nestedId_inj (by omega) (by omega)]
      omega
    simpa using hne
  unfold Program.shape? Program.type? nestedUnions
  rw [List.find?_map]
  dsimp only [Function.comp_def]
  rw [hfind]
  rfl

theorem typeFlags_nestedUnions (hlevels : levels + 1 < UInt32.size) (hi : i < levels) :
    (nestedUnions levels).host.typeFlags (nestedId i) = .union := by
  show ((Program.shape? _ _).map Shape.typeFlags).getD .none = _
  rw [shape?_nestedUnions hlevels (Nat.le_of_lt hi), nestedShape, if_pos hi]
  rfl

theorem unionMembers_nestedUnions (hlevels : levels + 1 < UInt32.size) (hi : i < levels) :
    (nestedUnions levels).host.unionMembers (nestedId i) = [nestedId (i + 1)] := by
  unfold Program.host
  dsimp only
  rw [shape?_nestedUnions hlevels (Nat.le_of_lt hi), nestedShape, if_pos hi]

theorem literalNode_nestedUnions (hlevels : levels + 1 < UInt32.size) :
    literalNode (nestedUnions levels).host (nestedId levels) = nestedNode levels levels ∧
      ((nestedUnions levels).host.typeFlags (nestedId levels)).isPerPosition = true := by
  have hshape := shape?_nestedUnions hlevels (Nat.le_refl levels)
  rw [nestedShape, if_neg (Nat.lt_irrefl levels)] at hshape
  have hflags : (nestedUnions levels).host.typeFlags (nestedId levels) = .stringLiteral := by
    show ((Program.shape? _ _).map Shape.typeFlags).getD .none = _
    rw [hshape]
    rfl
  have hvalue : (nestedUnions levels).host.stringLiteral? (nestedId levels) = some "x" := by
    unfold Program.host
    dsimp only
    rw [hshape]
  refine ⟨?_, by rw [hflags]; rfl⟩
  unfold literalNode nestedNode Reflection.literalContent?
  rw [hflags, hvalue, if_neg (Nat.lt_irrefl levels)]
  rfl

end Host

/-! ## Reflection -/

namespace Reflection

variable {τ σ : Type} {host : TypeHost τ σ} {request : Request} {type member : τ} {room : Nat}
  {s s' : Reflecting σ} {m : NodeRef}

/-- A union with one member is reflected one level around it. -/
theorem run_reflect_union (hflags : host.typeFlags type = .union)
    (hmembers : host.unionMembers type = [member])
    (hlookup : s.reflector.cache.lookup (host.typeId type) = none)
    (hdepth : s.reflector.depth.depth < s.reflector.depth.limit)
    (hmember : (reflect host request room member).run.run (shelled (host.typeId type) s) =
      (.ok m, s'))
    (hboolean : s'.reflector.store.isBooleanLike m = false) :
    (reflect host request (room + 1) type).run.run s =
      (.ok s.reflector.store.size, filled s.reflector.store.size (.union [m]) s') := by
  have hmembersRun : ([member].mapM (reflect host request room)).run.run
      (shelled (host.typeId type) s) = (.ok [m], s') := by
    rw [List.mapM_cons, run_bind_of_ok hmember]
    rfl
  have hnormalize : (normalizeMembers [m] : Reflection σ _).run.run s' = (.ok [m], s') := by
    have hnormal : s'.reflector.store.normalizeUnion [m] = ([m], s'.reflector.store) := by
      simp [Store.normalizeUnion, hboolean, Store.coversBoolean, Store.hasKind]
    unfold normalizeMembers
    rw [run_bind_of_ok (run_get s'), hnormal]
    rfl
  have hcontent : (content host request (reflect host request room) type (host.typeId type)
      (host.typeFlags type)).run.run (shelled (host.typeId type) s) = (.ok (.union [m]), s') := by
    rw [hflags]
    show (unionContent host (reflect host request room) type).run.run _ = _
    unfold unionContent
    rw [hmembers, run_bind_of_ok hmembersRun, run_bind_of_ok hnormalize]
    rfl
  unfold reflect
  rw [run_typeNode_nested hlookup (by rw [hflags]; nofun)]
  exact run_nested_ok hdepth hcontent

/-- Ahead of a union nothing is cached, and its levels do not go beyond the limit. -/
structure Ahead (levels i : Nat) (s : Reflecting σ) : Prop where
  size : s.reflector.store.size = i
  uncached : ∀ j, i ≤ j → j ≤ levels → s.reflector.cache.lookup (nestedId j) = none
  depth : s.reflector.depth.depth.toNat + (levels - i) ≤ s.reflector.depth.limit.toNat

theorem Ahead.lt_limit {levels i : Nat} (h : Ahead levels i s) (hi : i < levels) :
    s.reflector.depth.depth < s.reflector.depth.limit := by
  have := h.depth
  exact UInt32.lt_iff_toNat_lt.2 (by omega)

theorem Ahead.shelled {levels i : Nat} (hlevels : levels + 1 < UInt32.size) (h : Ahead levels i s)
    (hi : i < levels) : Ahead levels (i + 1) (shelled (nestedId i) s) where
  size := (Store.size_add _ _).trans (congrArg (· + 1) h.size)
  uncached j hj hle := by
    have hne : nestedId j ≠ nestedId i := by
      rw [Ne, nestedId_inj (by omega) (by omega)]
      omega
    exact (Cache.lookup_put_of_ne _ hne).trans (h.uncached j (by omega) hle)
  depth := by
    have hlt := h.lt_limit hi
    have hnat := UInt32.lt_iff_toNat_lt.1 hlt
    have hmax := s.reflector.depth.limit.toNat_lt
    have hle := h.depth
    have hsum : (s.reflector.depth.depth + 1).toNat = s.reflector.depth.depth.toNat + 1 := by
      rw [UInt32.toNat_add]
      exact Nat.mod_eq_of_lt (show _ + 1 < 2 ^ 32 by omega)
    show s.reflector.depth.enter.2.depth.toNat + _ ≤ s.reflector.depth.enter.2.limit.toNat
    rw [DepthCounter.enter_of_lt hlt, hsum]
    dsimp only
    omega

/-- The literal string in the innermost union is given a node. -/
theorem run_reflect_innermost {levels : Nat} {s : Reflecting String}
    (hlevels : levels + 1 < UInt32.size) (request : Request) (room : Nat)
    (A : Ahead levels levels s) :
    ∃ s', (reflect (nestedUnions levels).host request room (nestedId levels)).run.run s =
        (.ok levels, s') ∧
      s'.reflector.store = (s.reflector.store.add (nestedNode levels levels)).2 := by
  obtain ⟨hnode, hflags⟩ := literalNode_nestedUnions hlevels
  have hlookup := A.uncached levels (Nat.le_refl levels) (Nat.le_refl levels)
  cases room <;> unfold reflect <;>
    obtain ⟨report, hrun⟩ := run_typeNode_literal hlookup hflags <;>
    exact ⟨_, by rw [hrun, A.size], by rw [hnode]⟩

/-- Nested unions are reflected from the inside out. -/
theorem run_reflect_nestedUnions {levels : Nat} (hlevels : levels + 1 < UInt32.size)
    (request : Request) (k : Nat) :
    ∀ i room (s : Reflecting String), i + k = levels → k ≤ room → Ahead levels i s →
      ∃ s', (reflect (nestedUnions levels).host request room (nestedId i)).run.run s = (.ok i, s') ∧
        (∀ j < i, s'.reflector.store.node? j = s.reflector.store.node? j) ∧
        ∀ j, i ≤ j → j ≤ levels → s'.reflector.store.node? j = some (nestedNode levels j) := by
  induction k with
  | zero =>
    intro i room s hi _ A
    obtain rfl : i = levels := hi
    obtain ⟨s', hrun, hstore⟩ := run_reflect_innermost hlevels request room A
    refine ⟨s', hrun, fun j hj => ?_, fun j hj hle => ?_⟩
    · rw [hstore, Store.node?_add_of_lt _ (A.size ▸ hj)]
    · obtain rfl := Nat.le_antisymm hj hle
      have hself := Store.node?_add_self s.reflector.store (nestedNode i i)
      rwa [A.size, ← hstore] at hself
  | succ k ih =>
    intro i room s hi hroom A
    obtain ⟨room, rfl⟩ : ∃ left, room = left + 1 := ⟨room - 1, by omega⟩
    have hlt : i < levels := by omega
    obtain ⟨s', hrun, hbefore, hafter⟩ := ih (i + 1) room (shelled (nestedId i) s) (by omega)
      (by omega) (A.shelled hlevels hlt)
    have hmember := hafter (i + 1) (Nat.le_refl _) hlt
    have hboolean : s'.reflector.store.isBooleanLike (i + 1) = false := by
      unfold Store.isBooleanLike Store.kind?
      rw [Store.content?_of_node? hmember]
      split <;> rfl
    have hunion := run_reflect_union (typeFlags_nestedUnions hlevels hlt)
      (unionMembers_nestedUnions hlevels hlt) (A.uncached i (Nat.le_refl i) (Nat.le_of_lt hlt))
      (A.lt_limit hlt) hrun hboolean
    rw [A.size] at hunion
    have hshell : s'.reflector.store.node? i = some ⟨nestedId i, none⟩ := by
      rw [hbefore i (Nat.lt_succ_self i)]
      have hself := Store.node?_add_self s.reflector.store ⟨nestedId i, none⟩
      rwa [A.size] at hself
    refine ⟨_, hunion, fun j hj => ?_, fun j hj hle => ?_⟩
    · exact (Store.node?_fill_of_ne _ (Nat.ne_of_lt hj)).trans ((hbefore j (by omega)).trans
        (Store.node?_add_of_lt _ (A.size ▸ hj)))
    · by_cases heq : j = i
      · subst heq
        refine (Store.node?_fill_self hshell _).trans ?_
        rw [nestedNode, if_pos hlt]
      · exact (Store.node?_fill_of_ne _ heq).trans (hafter j (by omega) hle)

end Reflection

namespace Reflector

/-- As many unions as the limit says are reflected. -/
theorem reflect_nestedUnions {levels : Nat} {limit : UInt32} (hlevels : levels + 1 < UInt32.size)
    (hlimit : levels ≤ limit.toNat) (request : Request) :
    let reflected := (ofLimit limit).reflectType (nestedUnions levels).host request (nestedId 0)
    reflected.outcome = .ok 0 ∧
      ∀ j, j ≤ levels → reflected.reflector.store.node? j = some (nestedNode levels j) := by
  have A : Reflection.Ahead levels 0 ⟨ofLimit limit, (Report.empty : Report String)⟩ :=
    ⟨rfl, fun _ _ _ => rfl, by simpa [ofLimit, DepthCounter.ofLimit] using hlimit⟩
  obtain ⟨s', hrun, _, hnodes⟩ := Reflection.run_reflect_nestedUnions hlevels request levels 0
    (ofLimit limit).room _ (Nat.zero_add _) hlimit A
  have hreflected : (ofLimit limit).reflectType (nestedUnions levels).host request (nestedId 0) =
      ⟨.ok 0, s'.report, { s'.reflector with journal := [] }⟩ := by
    unfold reflectType Reflector.run
    rw [show { ofLimit limit with journal := [] } = ofLimit limit from rfl, hrun]
    rfl
  rw [hreflected]
  exact ⟨rfl, fun j hj => hnodes j (Nat.zero_le j) hj⟩

end Reflector

/-! ## The literal -/

section Literal

variable {store : Store} {levels : Nat}

/-- The nodes of nested unions can be told apart and have no properties. -/
theorem describable_nestedUnions (hlevels : levels + 1 < UInt32.size)
    (hnodes : ∀ j, j ≤ levels → store.node? j = some (nestedNode levels j)) :
    Describable store (· ≤ levels) where
  children n content hn hcontent child hchild := by
    rw [Store.content?_of_node? (hnodes n hn)] at hcontent
    split at hcontent
    · next hlt =>
      obtain rfl := Option.some.inj hcontent
      obtain rfl := List.mem_singleton.1 hchild
      exact hlt
    · obtain rfl := Option.some.inj hcontent
      cases hchild
  content_eq n n' id content content' hn hn' hnode hnode' _ := by
    obtain ⟨rfl, hcontent⟩ := TypeNode.mk.inj (Option.some.inj ((hnodes n hn).symm.trans hnode))
    obtain ⟨hid, hcontent'⟩ := TypeNode.mk.inj (Option.some.inj ((hnodes n' hn').symm.trans hnode'))
    have hlt : ∀ {m}, m ≤ levels → m + 1 < UInt32.size := fun hm => by omega
    obtain rfl := (nestedId_inj (hlt hn') (hlt hn)).1 hid
    exact Option.some.inj (hcontent.symm.trans hcontent')
  names n content hn hcontent := by
    rw [Store.content?_of_node? (hnodes n hn)] at hcontent
    split at hcontent <;> obtain rfl := Option.some.inj hcontent <;> exact List.nodup_nil

/-- What a walk comes to in a union before the member. -/
def spotsOfUnion (trail : Trail) (n member : NodeRef) : List Spot :=
  [(trail, .type n), (.key "kind" :: trail, .scalar), (.key "modifiers" :: trail, .scalar),
    (.key "initializer" :: trail, .scalar), (.key "types" :: trail, .types [member])]

/-- A walk of a union with one member goes two levels down to the member. -/
theorem walks_union {n member : NodeRef} {id : TypeId} {met : List (TypeId × TypeKind)}
    {trail : Trail} {spots : List Spot}
    (hnode : store.node? n = some ⟨id, some (.union [member])⟩) (hmet : (id, .union) ∉ met)
    (W : store.Walks ((id, .union) :: met)
      [(.ofIndex 0 :: .key "types" :: trail, .type member)] spots) :
    store.Walks met [(trail, .type n)] (spotsOfUnion trail n member ++ spots) := by
  have hkey : store.shared? n = some (id, .union) := Store.shared?_of_node? hnode
  refine .enter ⟨_, hkey, hmet⟩ ?_
  rw [Store.marks_of_shared? hkey, Store.inside,
    Store.parts_of_content? (Store.content?_of_node? hnode)]
  -- The kind, the modifiers and the initializer are scalars, and the list of members is entered.
  exact .pass (fun h => h) (.pass (fun h => h) (.pass (fun h => h) (.enter trivial W)))

/-- A walk of nested unions goes two levels down for each union. -/
theorem walks_nestedUnions (hlevels : levels + 1 < UInt32.size)
    (hnodes : ∀ j, j ≤ levels → store.node? j = some (nestedNode levels j)) (k : Nat) :
    ∀ i met (trail : Trail), i + k = levels →
      (∀ j, i ≤ j → j ≤ levels → (nestedId j, TypeKind.union) ∉ met) →
      ∃ spots deepest, store.Walks met [(trail, .type i)] spots ∧ (deepest, .type levels) ∈ spots ∧
        deepest.length = trail.length + 2 * k ∧
          ∀ trail' layout, (trail', layout) ∈ spots → layout ≠ .scalar →
            trail'.length ≤ trail.length + 2 * k := by
  induction k with
  | zero =>
    intro i met trail hi _
    obtain rfl : i = levels := hi
    have hnode := hnodes i (Nat.le_refl i)
    rw [nestedNode, if_neg (Nat.lt_irrefl i)] at hnode
    have hopens : ¬ store.Opens met (.type i) :=
      Store.not_opens_of_shared? (Store.shared?_of_isLiteral hnode rfl)
    refine ⟨_, trail, .pass hopens .done, List.mem_cons_self, rfl, fun trail' layout hspot _ => ?_⟩
    obtain ⟨rfl, _⟩ := Prod.mk.inj (List.mem_singleton.1 hspot)
    exact Nat.le_refl _
  | succ k ih =>
    intro i met trail hi hmet
    have hlt : i < levels := by omega
    have hnode := hnodes i (Nat.le_of_lt hlt)
    rw [nestedNode, if_pos hlt] at hnode
    have hmet' : ∀ j, i + 1 ≤ j → j ≤ levels →
        (nestedId j, TypeKind.union) ∉ (nestedId i, TypeKind.union) :: met := by
      intro j hj hle hmem
      rcases List.mem_cons.1 hmem with heq | hmem
      · have hid := (nestedId_inj (by omega) (by omega)).1 (Prod.mk.inj heq).1
        omega
      · exact hmet j (by omega) hle hmem
    obtain ⟨spots, deepest, W, hdeepest, hlen, hall⟩ :=
      ih (i + 1) ((nestedId i, .union) :: met) (.ofIndex 0 :: .key "types" :: trail)
        (by omega) hmet'
    refine ⟨_, deepest, walks_union hnode (hmet i (Nat.le_refl i) (Nat.le_of_lt hlt)) W,
      List.mem_append_right _ hdeepest, ?_, fun trail' layout hspot hscalar => ?_⟩
    · simp only [List.length_cons] at hlen
      omega
    rcases List.mem_append.1 hspot with hspot | hspot
    · have hle : trail'.length ≤ trail.length + 1 := by
        simp only [spotsOfUnion, List.mem_cons, List.not_mem_nil, or_false, Prod.mk.injEq] at hspot
        rcases hspot with ⟨rfl, _⟩ | ⟨rfl, _⟩ | ⟨rfl, _⟩ | ⟨rfl, _⟩ | ⟨rfl, _⟩ <;> simp
      omega
    · have hle := hall trail' layout hspot hscalar
      simp only [List.length_cons] at hle
      omega

end Literal

namespace Reflector

/-- Nested unions have a literal exactly if twice their number is below the limit. -/
theorem literal_nestedUnions_iff {levels : Nat} {limit : UInt32}
    (hlevels : levels + 1 < UInt32.size) (hlimit : levels ≤ limit.toNat) (request : Request)
    {limits : LiteralLimits} (hlimits : limits.depth ≤ limits.codec)
    (modifiers : Option Modifiers) :
    let reflected := (ofLimit limit).reflectType (nestedUnions levels).host request (nestedId 0)
    reflected.outcome = .ok 0 ∧
      ((∃ L, reflected.reflector.store.literal limits 0 modifiers = .ok L) ↔
        2 * levels < limits.depth.toNat) := by
  obtain ⟨houtcome, hnodes⟩ := reflect_nestedUnions hlevels hlimit request
  obtain ⟨spots, deepest, W, hdeepest, hlen, hall⟩ :=
    walks_nestedUnions hlevels hnodes levels 0 [] [] (Nat.zero_add _)
      fun _ _ _ => List.not_mem_nil
  simp only [List.length_nil, Nat.zero_add] at hlen hall
  refine ⟨houtcome, ?_⟩
  rw [W.literal_ok_iff (describable_nestedUnions hlevels hnodes)
    (fun n hn => ⟨_, _, hnodes n hn⟩) (Nat.zero_le levels) hlimits modifiers]
  constructor
  · intro hdepth
    exact hlen ▸ hdepth deepest _ hdeepest nofun
  · intro hdepth trail layout hspot hscalar
    exact Nat.lt_of_le_of_lt (hall trail layout hspot hscalar) hdepth

/-- As many unions as are reflected when no limits are given have no literal then. -/
theorem deepest_unions_without_literal :
    let reflected := (ofLimit DepthProfile.reflection.limit).reflectType (nestedUnions 256).host
      default (nestedId 0)
    reflected.outcome = .ok 0 ∧
      ¬ ∃ L, reflected.reflector.store.literal .standard 0 none = .ok L := by
  have hlevels : 256 + 1 < UInt32.size := by decide
  have hlimit : 256 ≤ DepthProfile.reflection.limit.toNat := by decide
  have hlimits : LiteralLimits.standard.depth ≤ LiteralLimits.standard.codec := by decide
  obtain ⟨houtcome, hiff⟩ := literal_nestedUnions_iff hlevels hlimit default hlimits none
  exact ⟨houtcome, fun hL => absurd (hiff.1 hL) (by decide)⟩

end Reflector

end TypeDescription
