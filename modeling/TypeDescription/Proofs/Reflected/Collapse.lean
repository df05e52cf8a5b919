import TypeDescription.Proofs.Reflected.Matching

/-!
# Joined members

The members of a union are joined in one pass: the `Store.others` stay in front, and one
`boolean` stands for the `Store.booleans` if they cover it.  A second pass finds nothing
to do, and it does not matter how the two parts were mixed.

`Store.Collapses` says what a pass comes to without saying how.  It speaks of kinds
only, and of a shell only that it is not boolean, so it still holds when a shell among
the members gets a content that is not boolean (`Collapses.of_booleanKind?`).
-/

namespace TypeDescription.Store

/-! ## The two parts of a list -/

/-- The nodes that are not of the boolean family, shells included. -/
def others (s : Store) (ns : List NodeRef) : List NodeRef :=
  ns.filter fun n => !s.isBooleanLike n

/-- The nodes of the boolean family. -/
def booleans (s : Store) (ns : List NodeRef) : List NodeRef :=
  ns.filter s.isBooleanLike

section Parts

variable {s s' : Store} {ns ms : List NodeRef} {n : NodeRef}

theorem isBooleanLike_of_kind? {kind : TypeKind} (h : s.kind? n = some kind) :
    s.isBooleanLike n = kind.isBooleanLike := by
  simp [isBooleanLike, h]

theorem mem_of_mem_others (h : n ∈ s.others ns) : n ∈ ns :=
  (List.mem_filter.1 h).1

theorem mem_of_mem_booleans (h : n ∈ s.booleans ns) : n ∈ ns :=
  (List.mem_filter.1 h).1

theorem others_append (s : Store) (ns ms : List NodeRef) :
    s.others (ns ++ ms) = s.others ns ++ s.others ms :=
  List.filter_append ..

theorem booleans_append (s : Store) (ns ms : List NodeRef) :
    s.booleans (ns ++ ms) = s.booleans ns ++ s.booleans ms :=
  List.filter_append ..

theorem others_others (s : Store) (ns : List NodeRef) : s.others (s.others ns) = s.others ns :=
  List.filter_eq_self.2 fun _ h => (List.mem_filter.1 h).2

theorem booleans_booleans (s : Store) (ns : List NodeRef) :
    s.booleans (s.booleans ns) = s.booleans ns :=
  List.filter_eq_self.2 fun _ h => (List.mem_filter.1 h).2

theorem booleans_others (s : Store) (ns : List NodeRef) : s.booleans (s.others ns) = [] := by
  refine List.filter_eq_nil_iff.2 fun n hn => ?_
  simpa using (List.mem_filter.1 hn).2

theorem others_booleans (s : Store) (ns : List NodeRef) : s.others (s.booleans ns) = [] := by
  refine List.filter_eq_nil_iff.2 fun n hn => ?_
  simpa using (List.mem_filter.1 hn).2

/-- Only the kinds of the boolean family decide the parts. -/
theorem others_congr (h : ∀ n ∈ ns, s'.booleanKind? n = s.booleanKind? n) :
    s'.others ns = s.others ns := by
  refine List.filter_congr fun n hn => ?_
  rw [isBooleanLike_eq, isBooleanLike_eq, h n hn]

theorem booleans_congr (h : ∀ n ∈ ns, s'.booleanKind? n = s.booleanKind? n) :
    s'.booleans ns = s.booleans ns := by
  refine List.filter_congr fun n hn => ?_
  rw [isBooleanLike_eq, isBooleanLike_eq, h n hn]

/-- What is joined depends on the two parts alone. -/
theorem normalizeUnion_congr (hothers : s.others ms = s.others ns)
    (hbooleans : s.booleans ms = s.booleans ns) :
    s.normalizeUnion ms = s.normalizeUnion ns := by
  unfold others at hothers
  unfold booleans at hbooleans
  unfold normalizeUnion
  rw [hothers, hbooleans]

/-! ## One pass -/

/-- The three ways in which members are joined: they do not cover `boolean`, they have
one, or one is made. -/
inductive Joins (s : Store) (ns : List NodeRef) : List NodeRef → Store → Prop
  | apart : s.coversBoolean (s.booleans ns) = false → Joins s ns (s.others ns ++ s.booleans ns) s
  | found {b : NodeRef} : b ∈ s.booleans ns → s.kind? b = some .boolean →
      Joins s ns (s.others ns ++ [b]) s
  | made : s.coversBoolean (s.booleans ns) = true →
      Joins s ns (s.others ns ++ [s.size]) (s.add synthesizedBoolean).2

theorem joins_normalizeUnion (s : Store) (ns : List NodeRef) :
    s.Joins ns (s.normalizeUnion ns).1 (s.normalizeUnion ns).2 := by
  unfold normalizeUnion
  dsimp only
  split
  · next hcovers =>
    split
    · next b hfind =>
      exact .found (List.mem_of_find?_eq_some hfind) (by simpa using List.find?_some hfind)
    · exact .made hcovers
  · next hcovers => exact .apart (Bool.eq_false_iff.2 hcovers)

/-- Where one `boolean` is all that is boolean, nothing is to be joined. -/
theorem normalizeUnion_of_singleton {b : NodeRef} (hbooleans : s.booleans ns = [b])
    (hb : s.kind? b = some .boolean) : s.normalizeUnion ns = (s.others ns ++ [b], s) := by
  unfold booleans at hbooleans
  unfold normalizeUnion
  simp [hbooleans, coversBoolean, hasKind, hb, others]

theorem kind?_congr (h : s'.node? n = s.node? n) : s'.kind? n = s.kind? n := by
  unfold kind? content?
  rw [h]

theorem booleanKind?_congr (h : s'.kind? n = s.kind? n) :
    s'.booleanKind? n = s.booleanKind? n := by
  unfold booleanKind?
  rw [h]

theorem kind?_add_self (s : Store) : (s.add synthesizedBoolean).2.kind? s.size = some .boolean := by
  unfold kind?
  rw [content?_of_node? (s.node?_add_self synthesizedBoolean)]
  rfl

end Parts

/-! ## Two passes -/

/-- Results of two passes agree at a position: they are the same one of the members, or
each is a `boolean` that was made. -/
def Agrees (s s' : Store) (members : List NodeRef) (n n' : NodeRef) : Prop :=
  (n ∈ members ∧ n' = n) ∨
    (s.node? n = some synthesizedBoolean ∧ s'.node? n' = some synthesizedBoolean)

section Passes

variable {s : Store} {members : List NodeRef}

/-- A second pass changes nothing. -/
theorem normalizeUnion_again (hmembers : ∀ n ∈ members, n < s.size) {joined : List NodeRef}
    {t : Store} (h : s.normalizeUnion members = (joined, t)) :
    t.normalizeUnion joined = (joined, t) := by
  have J := s.joins_normalizeUnion members
  rw [h] at J
  dsimp only at J
  cases J with
  | apart =>
    rw [← h]
    refine normalizeUnion_congr ?_ ?_
    · rw [others_append, others_others, others_booleans, List.append_nil]
    · rw [booleans_append, booleans_others, booleans_booleans, List.nil_append]
  | @found b hb hkind =>
    have hlike : s.isBooleanLike b = true := (List.mem_filter.1 hb).2
    rw [normalizeUnion_of_singleton (b := b) ?_ hkind]
    · rw [others_append, others_others]
      simp [others, hlike]
    · rw [booleans_append, booleans_others]
      simp [booleans, hlike]
  | made =>
    -- the members are what they were before the `boolean` was made
    have hold : ∀ n ∈ s.others members,
        (s.add synthesizedBoolean).2.booleanKind? n = s.booleanKind? n := fun n hn =>
      booleanKind?_congr (kind?_congr (node?_add_of_lt _ (hmembers n (mem_of_mem_others hn))))
    have hlike : (s.add synthesizedBoolean).2.isBooleanLike s.size = true :=
      isBooleanLike_of_kind? s.kind?_add_self
    rw [normalizeUnion_of_singleton (b := s.size) ?_ s.kind?_add_self]
    · rw [others_append, others_congr hold, others_others]
      simp [others, hlike]
    · rw [booleans_append, booleans_congr hold, booleans_others]
      simp [booleans, hlike]

/-- Passes over one list agree in any two stores in which the members are of the same
kinds. -/
theorem normalizeUnion_agrees {s' : Store} (hkinds : ∀ n ∈ members, s'.kind? n = s.kind? n) :
    List.Forall₂ ((s.normalizeUnion members).2.Agrees (s'.normalizeUnion members).2 members)
      (s.normalizeUnion members).1 (s'.normalizeUnion members).1 := by
  have hsame : List.Forall₂ (s.AgreeAlong s' fun n n' => n ∈ members ∧ n' = n) members members :=
    List.forall₂_same.2 fun n hn => ⟨⟨hn, rfl⟩, booleanKind?_congr (hkinds n hn)⟩
  rcases normalizeUnion_related hsame with ⟨joined, joined', hjoined, h, h'⟩ |
    ⟨others, others', hothers, h, h'⟩
  · rw [h, h']
    exact hjoined.imp fun _ _ hn => .inl hn
  · rw [h, h']
    refine List.rel_append (hothers.imp fun _ _ hn => .inl hn) (.cons (.inr ⟨?_, ?_⟩) .nil)
    · exact node?_add_self _ _
    · exact node?_add_self _ _

/-- Joining comes to rest at once, and it is blind to where the boolean members stand: lists
with the same two parts are joined to the same nodes, position by position, in the same
store or in any other one in which the members are of the same kinds.  Only a `boolean` that
is made is another node each time. -/
theorem normalizeUnion_of_same_parts (s : Store) (members : List NodeRef)
    (hmembers : ∀ n ∈ members, n < s.size) :
    ∃ joined t, s.normalizeUnion members = (joined, t) ∧
      t.normalizeUnion joined = (joined, t) ∧
      ∀ (s' : Store) (members' : List NodeRef), (∀ n ∈ members, s'.kind? n = s.kind? n) →
        s.others members' = s.others members → s.booleans members' = s.booleans members →
          ∃ joined' t', s'.normalizeUnion members' = (joined', t') ∧
            List.Forall₂ (t.Agrees t' members) joined joined' := by
  refine ⟨_, _, (Prod.mk.eta (p := s.normalizeUnion members)).symm,
    normalizeUnion_again hmembers rfl, ?_⟩
  intro s' members' hkinds hothers hbooleans
  refine ⟨_, _, (Prod.mk.eta (p := s'.normalizeUnion members')).symm, ?_⟩
  -- the other list has the same members
  have hmem : ∀ n ∈ members', n ∈ members := by
    intro n hn
    cases hlike : s.isBooleanLike n with
    | true =>
      have hn : n ∈ s.booleans members' := List.mem_filter.2 ⟨hn, hlike⟩
      exact mem_of_mem_booleans (hbooleans ▸ hn)
    | false =>
      have hn : n ∈ s.others members' := List.mem_filter.2 ⟨hn, by rw [hlike]; rfl⟩
      exact mem_of_mem_others (hothers ▸ hn)
  have hkinds' : ∀ {ns : List NodeRef}, (∀ n ∈ ns, n ∈ members) →
      ∀ n ∈ ns, s'.booleanKind? n = s.booleanKind? n :=
    fun hns n hn => booleanKind?_congr (hkinds n (hns n hn))
  have hsame : s'.normalizeUnion members' = s'.normalizeUnion members := by
    refine normalizeUnion_congr ?_ ?_
    · rw [others_congr (hkinds' hmem), others_congr (hkinds' fun _ h => h), hothers]
    · rw [booleans_congr (hkinds' hmem), booleans_congr (hkinds' fun _ h => h), hbooleans]
  rw [hsame]
  exact normalizeUnion_agrees hkinds

/-- A shell, both truth values and a string. -/
def mixed : Store :=
  ⟨#[⟨⟨1⟩, none⟩, ⟨⟨2⟩, some .trueLiteral⟩, ⟨⟨3⟩, some .string⟩, ⟨⟨4⟩, some .falseLiteral⟩]⟩

/-- The truth values make a `boolean`, which a second pass keeps; from another mixture of
the same parts another `boolean` is made, at the same position. -/
theorem normalizeUnion_mixed :
    let t := (mixed.add synthesizedBoolean).2
    let t' := (t.add synthesizedBoolean).2
    mixed.normalizeUnion [1, 0, 3, 2] = ([0, 2, 4], t) ∧
      t.normalizeUnion [0, 2, 4] = ([0, 2, 4], t) ∧
      t.normalizeUnion [0, 1, 2, 3] = ([0, 2, 5], t') ∧
      List.Forall₂ (t.Agrees t' [1, 0, 3, 2]) [0, 2, 4] [0, 2, 5] := by
  intro t t'
  have hfirst : mixed.normalizeUnion [1, 0, 3, 2] = ([0, 2, 4], t) := by decide +kernel
  have hother : t.normalizeUnion [0, 1, 2, 3] = ([0, 2, 5], t') := by decide +kernel
  obtain ⟨_, _, h, hagain, hblind⟩ :=
    normalizeUnion_of_same_parts mixed [1, 0, 3, 2] (by decide +kernel)
  obtain ⟨rfl, rfl⟩ := Prod.mk.inj (hfirst.symm.trans h)
  obtain ⟨_, _, h', hagrees⟩ :=
    hblind t [0, 1, 2, 3] (by decide +kernel) (by decide +kernel) (by decide +kernel)
  obtain ⟨rfl, rfl⟩ := Prod.mk.inj (hother.symm.trans h')
  exact ⟨hfirst, hagain, hother, hagrees⟩

end Passes

/-! ## What a pass comes to -/

/-- Some node is a `boolean`, or there are nodes of both truth values. -/
def Covers (s : Store) (ns : List NodeRef) : Prop :=
  (∃ n ∈ ns, s.kind? n = some .boolean) ∨
    (∃ n ∈ ns, s.kind? n = some .trueLiteral) ∧ ∃ n ∈ ns, s.kind? n = some .falseLiteral

/-- Members are what nodes are joined to: the `Store.others` in their order, and behind them
one `boolean` if the nodes cover it, else the boolean nodes in their order, all of one truth
value. -/
inductive Collapses (s : Store) (ns : List NodeRef) : List NodeRef → Prop
  | covered {b : NodeRef} : s.Covers ns → s.kind? b = some .boolean →
      Collapses s ns (s.others ns ++ [b])
  | apart {kind : TypeKind} : ¬ s.Covers ns → kind = .trueLiteral ∨ kind = .falseLiteral →
      (∀ n ∈ s.booleans ns, s.kind? n = some kind) → Collapses s ns (s.others ns ++ s.booleans ns)

section Collapses

variable {s s' : Store} {ns members : List NodeRef} {n : NodeRef} {kind : TypeKind}

theorem kind?_eq_some_iff (hkind : kind.isBooleanLike = true) :
    s.kind? n = some kind ↔ s.booleanKind? n = some kind := by
  rw [← beq_iff_eq, kind?_beq_eq _ _ hkind, beq_iff_eq]

theorem hasKind_booleans_iff (hkind : kind.isBooleanLike = true) :
    s.hasKind kind (s.booleans ns) = true ↔ ∃ n ∈ ns, s.kind? n = some kind := by
  unfold hasKind
  rw [List.any_eq_true]
  constructor
  · rintro ⟨n, hn, heq⟩
    exact ⟨n, mem_of_mem_booleans hn, beq_iff_eq.1 heq⟩
  · rintro ⟨n, hn, heq⟩
    exact ⟨n, List.mem_filter.2 ⟨hn, (isBooleanLike_of_kind? heq).trans hkind⟩, beq_iff_eq.2 heq⟩

theorem coversBoolean_iff : s.coversBoolean (s.booleans ns) = true ↔ s.Covers ns := by
  unfold coversBoolean Covers
  rw [Bool.or_eq_true, Bool.and_eq_true, hasKind_booleans_iff rfl, hasKind_booleans_iff rfl,
    hasKind_booleans_iff rfl]

theorem covers_congr (h : ∀ n ∈ ns, s'.booleanKind? n = s.booleanKind? n) :
    s'.Covers ns ↔ s.Covers ns := by
  have hexists : ∀ kind : TypeKind, kind.isBooleanLike = true →
      ((∃ n ∈ ns, s'.kind? n = some kind) ↔ ∃ n ∈ ns, s.kind? n = some kind) := by
    intro kind hkind
    refine exists_congr fun n => and_congr_right fun hn => ?_
    rw [kind?_eq_some_iff hkind, kind?_eq_some_iff hkind, h n hn]
  unfold Covers
  rw [hexists _ rfl, hexists _ rfl, hexists _ rfl]

/-- Boolean nodes that do not cover `boolean` are all of one truth value. -/
theorem exists_kind_of_not_covers (h : ¬ s.Covers ns) :
    ∃ kind : TypeKind, (kind = .trueLiteral ∨ kind = .falseLiteral) ∧
      ∀ n ∈ s.booleans ns, s.kind? n = some kind := by
  have hcases : ∀ n ∈ s.booleans ns,
      s.kind? n = some .trueLiteral ∨ s.kind? n = some .falseLiteral := by
    intro n hn
    obtain ⟨hmem, hlike⟩ := List.mem_filter.1 hn
    cases hkind : s.kind? n with
    | none => simp [isBooleanLike, hkind] at hlike
    | some kind =>
      rw [isBooleanLike_of_kind? hkind] at hlike
      cases kind with
      | boolean => exact absurd (.inl ⟨n, hmem, hkind⟩) h
      | trueLiteral => exact .inl rfl
      | falseLiteral => exact .inr rfl
      | _ => cases hlike
  by_cases htrue : ∃ n ∈ ns, s.kind? n = some .trueLiteral
  · refine ⟨.trueLiteral, .inl rfl, fun n hn => (hcases n hn).resolve_right fun hfalse => ?_⟩
    exact h (.inr ⟨htrue, n, mem_of_mem_booleans hn, hfalse⟩)
  · refine ⟨.falseLiteral, .inr rfl, fun n hn => (hcases n hn).resolve_left fun hn' => ?_⟩
    exact htrue ⟨n, mem_of_mem_booleans hn, hn'⟩

/-- Only what is boolean, and how, decides what nodes are joined to. -/
theorem Collapses.of_booleanKind? (hns : ∀ n ∈ ns, s'.booleanKind? n = s.booleanKind? n)
    (hmembers : ∀ n ∈ members, s'.booleanKind? n = s.booleanKind? n)
    (h : s.Collapses ns members) : s'.Collapses ns members := by
  cases h with
  | @covered b hcovers hb =>
    rw [← others_congr hns]
    refine .covered ((covers_congr hns).2 hcovers) ?_
    rw [kind?_eq_some_iff rfl, hmembers b (by simp), ← kind?_eq_some_iff rfl, hb]
  | @apart kind hcovers hkind hall =>
    rw [← others_congr hns, ← booleans_congr hns]
    refine .apart (mt (covers_congr hns).1 hcovers) hkind fun n hn => ?_
    have hlike : kind.isBooleanLike = true := by
      rcases hkind with rfl | rfl <;> rfl
    rw [booleans_congr hns] at hn
    rw [kind?_eq_some_iff hlike, hns n (mem_of_mem_booleans hn), ← kind?_eq_some_iff hlike]
    exact hall n hn

/-- What nodes are joined to is in the store if they are. -/
theorem Collapses.lt_size (hns : ∀ n ∈ ns, n < s.size) (h : s.Collapses ns members) :
    ∀ n ∈ members, n < s.size := by
  cases h with
  | covered _ hb =>
    intro n hn
    rcases List.mem_append.1 hn with hn | hn
    · exact hns n (mem_of_mem_others hn)
    · obtain rfl := List.mem_singleton.1 hn
      obtain ⟨content, hcontent, _⟩ := Option.map_eq_some_iff.1 hb
      obtain ⟨node, hnode, _⟩ := Option.bind_eq_some_iff.1 hcontent
      exact lt_size_of_node? hnode
  | apart =>
    intro n hn
    rcases List.mem_append.1 hn with hn | hn
    · exact hns n (mem_of_mem_others hn)
    · exact hns n (mem_of_mem_booleans hn)

/-- Joining does what it should. -/
theorem normalizeUnion_collapses (hns : ∀ n ∈ ns, n < s.size) :
    (s.normalizeUnion ns).2.Collapses ns (s.normalizeUnion ns).1 := by
  rcases hjoined : s.normalizeUnion ns with ⟨joined, t⟩
  have J := s.joins_normalizeUnion ns
  rw [hjoined] at J
  dsimp only at J ⊢
  cases J with
  | apart hcovers =>
    have hcovers : ¬ s.Covers ns := by
      rw [← coversBoolean_iff, hcovers]
      exact Bool.false_ne_true
    obtain ⟨kind, hkind, hall⟩ := exists_kind_of_not_covers hcovers
    exact .apart hcovers hkind hall
  | found hb hkind => exact .covered (.inl ⟨_, mem_of_mem_booleans hb, hkind⟩) hkind
  | made hcovers =>
    have hold : ∀ n ∈ ns, (s.add synthesizedBoolean).2.booleanKind? n = s.booleanKind? n :=
      fun n hn => booleanKind?_congr (kind?_congr (node?_add_of_lt _ (hns n hn)))
    rw [← others_congr hold]
    exact .covered ((covers_congr hold).2 (coversBoolean_iff.1 hcovers)) s.kind?_add_self

end Collapses

end TypeDescription.Store
