import Mathlib.Data.Nat.ModEq
import TypeDescription.Proofs.Graph.Comparison

/-!
# How deep a comparison nests

A level of the comparison belongs to a pair of containers, one below each value.  So
what the limit cuts off is not the depth of either graph but that of the pairs in one
another, and two short cycles may make a long chain of pairs.

* `Heap.Descent` lists the pairs on the way down to two values at the same place,
  `Heap.NestsWithin` bounds how many different pairs lie in one another.  Bisimilar
  values compare equal within that bound (`structurallyEqual_of_bisimilar`), for
  instance where there are few pairs (`nestsWithin_of_card_le`).
* Bisimilarity is transitive (`Bisimilar.trans`), and so is the comparison if the pairs
  of the outer two graphs nest within the limit (`structurallyEqual_trans`).
* A ring of `m` containers and one of `n` nest `lcm m n` pairs
  (`structurallyEqual_rings_iff`).
-/

namespace TypeDescription

variable {X : Type}

/-! ## Bisimilarity is transitive -/

theorem Double.Equals.trans {x y z : Double} (hxy : x.Equals y) (hyz : y.Equals z) :
    x.Equals z := by
  rcases hxy with rfl | hzero | hnan
  · exact hyz
  · rcases hyz with rfl | hzero' | hnan'
    · exact .inr (.inl hzero)
    · exact .inr (.inl ⟨hzero.1, hzero'.2⟩)
    · have hnot := isNaN_of_isZero hzero.2
      exact absurd hnan'.1 (by simp [hnot])
  · rcases hyz with rfl | hzero' | hnan'
    · exact .inr (.inr hnan)
    · have hnot := isNaN_of_isZero hzero'.1
      exact absurd hnan.2 (by simp [hnot])
    · exact .inr (.inr ⟨hnan.1, hnan'.2⟩)

theorem Primitive.Equals.trans {p q r : Primitive} (hpq : p.Equals q) (hqr : q.Equals r) :
    p.Equals r := by
  cases hpq with
  | number hxy =>
    cases hqr with
    | number hyz => exact .number (hxy.trans hyz)
  | _ => exact hqr

theorem Value.Equals.trans {v w u : Value X} (hvw : v.Equals w) (hwu : w.Equals u) :
    v.Equals u := by
  cases hvw with
  | number hxy =>
    cases hwu with
    | number hyz => exact .number (hxy.trans hyz)
  | date hxy =>
    cases hwu with
    | date hyz => exact .date (hxy.trans hyz)
  | boxed hpq =>
    cases hwu with
    | boxed hqr => exact .boxed (hpq.trans hqr)
  | _ => exact hwu

/-- One relation after another. -/
def Value.Through (R S : Value X → Value X → Prop) (v u : Value X) : Prop :=
  ∃ w, R v w ∧ S w u

theorem Cell.Related.trans {R S : Value X → Value X → Prop} {c d e : Cell X}
    (hcd : c.Related R d) (hde : d.Related S e) : c.Related (Value.Through R S) e := by
  have hthrough : ∀ v w u, R v w → S w u → Value.Through R S v u :=
    fun _ w _ hvw hwu => ⟨w, hvw, hwu⟩
  cases hcd with
  | array hab =>
    cases hde with
    | array hbc => exact .array (forall₂_trans hthrough hab hbc)
  | set hab =>
    cases hde with
    | set hbc => exact .set (forall₂_trans hthrough hab hbc)
  | @object as bs hab =>
    cases hde with
    | @object _ cs hbc =>
      refine .object fun name => ?_
      have hname := hab name
      have hname' := hbc name
      cases hv : as.get? name <;> cases hw : bs.get? name <;> cases hu : cs.get? name <;>
        rw [hv, hw] at hname <;> rw [hw, hu] at hname' <;> cases hname <;> cases hname'
      · exact .none
      · next hvw hwu => exact .some ⟨_, hvw, hwu⟩
  | map hab =>
    cases hde with
    | map hbc =>
      refine .map (forall₂_trans (fun e f g hef hfg => ?_) hab hbc)
      exact ⟨⟨_, hef.1, hfg.1⟩, ⟨_, hef.2, hfg.2⟩⟩

namespace Heap

theorem Matches.trans {h : Heap X} {R S : Value X → Value X → Prop} {v w u : Value X}
    (hvw : h.Matches R v w) (hwu : h.Matches S w u) : h.Matches (Value.Through R S) v u := by
  cases hvw with
  | scalar heq =>
    cases hwu with
    | scalar heq' => exact .scalar (heq.trans heq')
    | exempt hrel => cases heq
    | node => cases heq
  | exempt hrel =>
    cases hwu with
    | scalar heq => cases heq
    | exempt hrel' => exact .exempt ⟨_, hrel, hrel'⟩
  | node hc hd hrel =>
    cases hwu with
    | scalar heq => cases heq
    | node hd' he hrel' =>
      obtain rfl := Option.some.inj (hd.symm.trans hd')
      exact .node hc he (hrel.trans hrel')

theorem Bisimilar.trans {h : Heap X} {x y z : Value X} (hxy : h.Bisimilar x y)
    (hyz : h.Bisimilar y z) : h.Bisimilar x z := by
  obtain ⟨R, hR, hxy⟩ := hxy
  obtain ⟨S, hS, hyz⟩ := hyz
  refine ⟨Value.Through R S, fun v u hvu => ?_, y, hxy, hyz⟩
  obtain ⟨w, hvw, hwu⟩ := hvu
  exact (hR v w hvw).trans (hS w u hwu)

/-! ## Pairs in one another -/

/-- Two values at the same place below two others, and the pairs of containers on the way
to them, the last pair first. -/
inductive Descent (h : Heap X) (x y : Value X) : List (Ref × Ref) → Value X → Value X → Prop
  | root : Descent h x y [] x y
  | marked {path : List (Ref × Ref)} {v w : Value X} :
      Descent h x y path (.exempt v) (.exempt w) → Descent h x y path v w
  | content {path : List (Ref × Ref)} {a b : Ref} {c d : Cell X} {v w : Value X} :
      Descent h x y path (.node a) (.node b) → h.cell? a = some c → h.cell? b = some d →
        c.Facing d v w → Descent h x y ((a, b) :: path) v w

/-- Where two values are compared, no more than `limit` pairs of two containers lie in one
another, if none comes twice. -/
def NestsWithin (h : Heap X) (limit : Nat) (x y : Value X) : Prop :=
  ∀ path a b, h.Descent x y path (.node a) (.node b) → ((a, b) :: path).Nodup →
    (∀ e ∈ (a, b) :: path, e.1 ≠ e.2) → path.length < limit

section Nesting

variable {h : Heap X} {x y z : Value X} {limit : Nat}

/-- The pairs in one another are all in the way of the comparison, so it never runs out of
room within the bound. -/
theorem affirms_of_descent [DecidableEq X] {R : Value X → Value X → Prop}
    (hR : h.Bisimulation R) (hboxed : ∀ y w, R (.boxed (.number y)) w → y.isNaN = false)
    (hnests : h.NestsWithin limit x y) (room : Nat) {path : List (Ref × Ref)} {a b : Ref}
    (hroom : limit ≤ path.length + room) (hdown : h.Descent x y path (.node a) (.node b))
    (hnodup : path.Nodup) (hother : ∀ e ∈ path, e.1 ≠ e.2) (hab : R (.node a) (.node b)) :
    Affirms (fun s => path ⊆ s) (h.nodesAgree room a b) := by
  induction room generalizing path a b with
  | zero =>
    cases hR _ _ hab with
    | scalar heq => cases heq
    | node hc hd hrel =>
      refine affirms_nodesAgree (Q := fun _ => True) hc hd (sameKind_of_related hrel)
        fun s hs hnot => ?_
      rw [not_or] at hnot
      have hlt := hnests path a b hdown
        (List.nodup_cons.2 ⟨fun hmem => hnot.2 (hs hmem), hnodup⟩)
        (List.forall_mem_cons.2 ⟨hnot.1, hother⟩)
      omega
  | succ room ih =>
    cases hR _ _ hab with
    | scalar heq => cases heq
    | node hc hd hrel =>
      refine affirms_nodesAgree (Q := fun s => (a, b) :: path ⊆ s) hc hd
        (sameKind_of_related hrel) fun s hs hnot => ⟨room, rfl, List.cons_subset_cons _ hs, ?_⟩
      rw [not_or] at hnot
      refine affirms_cellsAgree (fun _ _ hst hs => List.Subset.trans hs hst) hrel
        fun v w hface hvw => ?_
      refine affirms_agree (D := h.Descent x y ((a, b) :: path)) hR hboxed
        (fun _ _ hdown => .marked hdown) (fun a' b' hdown' hab' => ?_) v w
        (.content hdown hc hd hface) hvw
      exact ih (by rw [List.length_cons]; omega) hdown'
        (List.nodup_cons.2 ⟨fun hmem => hnot.2 (hs hmem), hnodup⟩)
        (List.forall_mem_cons.2 ⟨hnot.1, hother⟩) hab'

/-- Bisimilar values compare equal if their pairs nest within the limit. -/
theorem structurallyEqual_of_bisimilar [DecidableEq X]
    (hboxed : ∀ y, h.Below x (.boxed (.number y)) → y.isNaN = false)
    (hnests : h.NestsWithin 1024 x y) (hxy : h.Bisimilar x y) :
    h.structurallyEqual x y = true := by
  obtain ⟨R, hR, hxy⟩ := hxy
  have haffirms := affirms_agree (P := fun s => [] ⊆ s) (D := h.Descent x y []) (hR.below x y)
    (fun z _ hz => hboxed z hz.1) (fun _ _ hdown => .marked hdown)
    (fun a b hdown hab => affirms_of_descent (hR.below x y) (fun z _ hz => hboxed z hz.1) hnests
      1024 (Nat.le_add_left _ _) hdown .nil nofun hab)
    x y .root ⟨.root, .root, hxy⟩
  exact (haffirms [] (List.Subset.refl [])).1

/-- The comparison says yes to bisimilar values only. -/
theorem bisimilar_of_structurallyEqual [DecidableEq X] (hx : h.Comparable x)
    (hyes : h.structurallyEqual x y = true) : h.Bisimilar x y := by
  obtain ⟨hgrown, heq⟩ := justifies_agree (justifies_nodesAgree h _) x y [] hyes
  exact bisimilar_of_grounded hx hgrown heq

/-! ### Bounds -/

theorem Cell.Facing.mem_contents {c d : Cell X} {v w : Value X} (hface : c.Facing d v w) :
    v ∈ c.contents ∧ w ∈ d.contents := by
  cases hface with
  | array hmem => exact List.of_mem_zip hmem
  | set hmem => exact List.of_mem_zip hmem
  | object hv hw => exact ⟨Table.mem_values_of_get? hv, Table.mem_values_of_get? hw⟩
  | @mapKey as bs e f hmem =>
    obtain ⟨he, hf⟩ := List.of_mem_zip hmem
    exact ⟨List.mem_flatMap.2 ⟨e, he, by simp⟩, List.mem_flatMap.2 ⟨f, hf, by simp⟩⟩
  | @mapValue as bs e f hmem =>
    obtain ⟨he, hf⟩ := List.of_mem_zip hmem
    exact ⟨List.mem_flatMap.2 ⟨e, he, by simp⟩, List.mem_flatMap.2 ⟨f, hf, by simp⟩⟩

theorem below_of_descent {path : List (Ref × Ref)} {v w : Value X}
    (hdown : h.Descent x y path v w) :
    h.Below x v ∧ h.Below y w ∧ ∀ e ∈ path, h.Below x (.node e.1) ∧ h.Below y (.node e.2) := by
  induction hdown with
  | root => exact ⟨.root, .root, nofun⟩
  | marked _ ih => exact ⟨.marked ih.1, .marked ih.2.1, ih.2.2⟩
  | content _ hc hd hface ih =>
    obtain ⟨hv, hw, hpath⟩ := ih
    obtain ⟨hmem, hmem'⟩ := Cell.Facing.mem_contents hface
    exact ⟨.content hv hc hmem, .content hw hd hmem', List.forall_mem_cons.2 ⟨⟨hv, hw⟩, hpath⟩⟩

/-- No more pairs lie in one another than there are pairs. -/
theorem nestsWithin_of_card_le (hx : h.Comparable x) (hy : h.Comparable y)
    (hcard : {r | h.Below x (.node r)}.ncard * {r | h.Below y (.node r)}.ncard ≤ limit) :
    h.NestsWithin limit x y := by
  intro path a b hdown hnodup _
  obtain ⟨ha, hb, hpath⟩ := below_of_descent hdown
  have hsub : ((a, b) :: path).toFinset ⊆ hx.finite.toFinset ×ˢ hy.finite.toFinset := by
    intro e he
    have hall := List.forall_mem_cons.2 ⟨⟨ha, hb⟩, hpath⟩ e (List.mem_toFinset.1 he)
    simpa using hall
  have hle := Finset.card_le_card hsub
  rw [List.toFinset_card_of_nodup hnodup, Finset.card_product, List.length_cons,
    ← Set.ncard_eq_toFinset_card _ hx.finite, ← Set.ncard_eq_toFinset_card _ hy.finite] at hle
  omega

end Nesting

/-! ## Rings -/

/-- From a container on, so many containers in a row each hold the next, and the last holds the
first. -/
def IsRing (h : Heap X) (start size : Nat) : Prop :=
  ∀ i < size, h.cell? (start + i) = some (.array [.node (start + (i + 1) % size)])

/-- The pair that two rings make after so many steps around them. -/
def ringPair (a m b n k : Nat) : Ref × Ref :=
  (a + k % m, b + k % n)

/-- The pairs of the steps before. -/
def ringPairs (a m b n k : Nat) : Assumed :=
  (List.range k).reverse.map (ringPair a m b n)

section Rings

variable {h : Heap X} {a m b n : Nat}

theorem ringPair_eq_iff {i k : Nat} (hik : i ≤ k) :
    ringPair a m b n i = ringPair a m b n k ↔ Nat.lcm m n ∣ k - i := by
  rw [Nat.lcm_dvd_iff, ← Nat.modEq_iff_dvd' hik, ← Nat.modEq_iff_dvd' hik]
  simp [ringPair, Nat.ModEq]

/-- A pair comes again after as many steps as the least common multiple. -/
theorem ringPair_mem_iff (hm : 0 < m) (hn : 0 < n) (k : Nat) :
    ringPair a m b n k ∈ ringPairs a m b n k ↔ Nat.lcm m n ≤ k := by
  simp only [ringPairs, List.mem_map, List.mem_reverse, List.mem_range]
  constructor
  · rintro ⟨i, hi, heq⟩
    have hdvd := (ringPair_eq_iff (Nat.le_of_lt hi)).1 heq
    have hle := Nat.le_of_dvd (by omega) hdvd
    omega
  · intro hle
    have hpos := Nat.lcm_pos hm hn
    refine ⟨k - Nat.lcm m n, by omega, (ringPair_eq_iff (Nat.sub_le _ _)).2 ?_⟩
    rw [Nat.sub_sub_self hle]

/-- Two lists of one container each compare as the containers do. -/
theorem fst_run_cellsAgree_singleton (agree : Value X → Value X → Comparison) (v w : Value X)
    (s : Assumed) :
    ((cellsAgree agree (.array [v]) (.array [w])).run s).1 = ((agree v w).run s).1 := by
  simp only [cellsAgree, cellsAgree.listsAgree, List.length_singleton, if_true,
    List.zip_cons_cons, List.zip_nil_left]
  exact Comparison.fst_run_all_singleton (fun p => agree p.1 p.2) (v, w) s

/-- A comparison of two rings that has gone so many steps goes on as long as there is room, or
until a pair comes again. -/
theorem run_nodesAgree_rings [DecidableEq X] (ha : h.IsRing a m) (hb : h.IsRing b n) (hm : 0 < m)
    (hn : 0 < n) (hapart : ∀ i < m, ∀ j < n, a + i ≠ b + j) (room k : Nat) :
    ((h.nodesAgree room (ringPair a m b n k).1 (ringPair a m b n k).2).run
      (ringPairs a m b n k)).1 = decide (Nat.lcm m n ≤ k + room) := by
  induction room using Nat.strong_induction_on generalizing k with
  | _ room ih =>
    have hother : (ringPair a m b n k).1 ≠ (ringPair a m b n k).2 :=
      hapart _ (Nat.mod_lt _ hm) _ (Nat.mod_lt _ hn)
    have hc : h.cell? (ringPair a m b n k).1 =
        some (.array [.node (ringPair a m b n (k + 1)).1]) := by
      simpa [ringPair] using ha (k % m) (Nat.mod_lt _ hm)
    have hd : h.cell? (ringPair a m b n k).2 =
        some (.array [.node (ringPair a m b n (k + 1)).2]) := by
      simpa [ringPair] using hb (k % n) (Nat.mod_lt _ hn)
    rw [run_nodesAgree]
    simp only [hc, hd, sameKind, Bool.true_eq_false, if_false, hother, false_or, Prod.mk.eta,
      ringPair_mem_iff hm hn]
    by_cases hmet : Nat.lcm m n ≤ k
    · rw [if_pos hmet]
      exact (decide_eq_true (Nat.le_trans hmet (Nat.le_add_right _ _))).symm
    · rw [if_neg hmet]
      cases room with
      | zero => exact (decide_eq_false (by omega)).symm
      | succ room =>
        have hnext : ringPair a m b n k :: ringPairs a m b n k = ringPairs a m b n (k + 1) := by
          simp [ringPairs, List.range_succ]
        simp only [fst_run_cellsAgree_singleton, Value.agree, hnext,
          ih room (Nat.lt_succ_self room) (k + 1)]
        rw [Nat.add_right_comm, Nat.add_assoc]

/-- Two rings are equal as long as no more pairs than the limit come up before the first comes
again. -/
theorem structurallyEqual_rings_iff [DecidableEq X] (ha : h.IsRing a m) (hb : h.IsRing b n)
    (hm : 0 < m) (hn : 0 < n) (hapart : ∀ i < m, ∀ j < n, a + i ≠ b + j) :
    h.structurallyEqual (.node a) (.node b) = true ↔ Nat.lcm m n ≤ 1024 := by
  have hrun := run_nodesAgree_rings ha hb hm hn hapart 1024 0
  simp only [ringPair, Nat.zero_mod, Nat.add_zero, Nat.zero_add] at hrun
  unfold structurallyEqual
  exact (Bool.eq_iff_iff.1 hrun).trans decide_eq_true_iff

end Rings

/-! ## The comparison is transitive -/

/-- Equality is passed on from `x` over `y` to `z`, if the pairs of `x` and `z` nest within the
limit. -/
theorem structurallyEqual_trans [DecidableEq X] {h : Heap X} {x y z : Value X}
    (hx : h.Comparable x) (hy : h.Comparable y) (hxy : h.structurallyEqual x y = true)
    (hyz : h.structurallyEqual y z = true) (hnests : h.NestsWithin 1024 x z) :
    h.structurallyEqual x z = true := by
  have hbisimilar := (bisimilar_of_structurallyEqual hx hxy).trans
    (bisimilar_of_structurallyEqual hy hyz)
  exact structurallyEqual_of_bisimilar hx.boxed hnests hbisimilar

/-- The containers of a ring. -/
def hoop (start size : Nat) : List (Cell Unit) :=
  (List.range size).map fun i => .array [.node (start + (i + 1) % size)]

/-- Three rings, one after the other. -/
def hoops (l m n : Nat) : Heap Unit :=
  ⟨(hoop 0 l ++ hoop l m ++ hoop (l + m) n).toArray⟩

theorem contents_hoops {l m n r : Nat} {c : Cell Unit} {v : Value Unit}
    (hcell : (hoops l m n).cell? r = some c) (hv : v ∈ c.contents) :
    ∃ s < l + m + n, v = .node s := by
  have hmem : c ∈ hoop 0 l ++ hoop l m ++ hoop (l + m) n := by
    apply List.mem_of_getElem? (i := r)
    simpa [hoops, cell?] using hcell
  have hhoop : ∀ start size, c ∈ hoop start size → ∃ s < start + size, v = .node s := by
    intro start size hc
    obtain ⟨i, hi, rfl⟩ := List.mem_map.1 hc
    have hlt := Nat.mod_lt (i + 1) (Nat.zero_lt_of_lt (List.mem_range.1 hi))
    exact ⟨_, Nat.add_lt_add_left hlt start, by simpa [Cell.contents, Cell.slots] using hv⟩
  simp only [List.mem_append] at hmem
  rcases hmem with (hc | hc) | hc
  · obtain ⟨s, hs, rfl⟩ := hhoop _ _ hc
    exact ⟨s, by omega, rfl⟩
  · obtain ⟨s, hs, rfl⟩ := hhoop _ _ hc
    exact ⟨s, by omega, rfl⟩
  · exact hhoop _ _ hc

theorem below_hoops {l m n a : Nat} {v : Value Unit} (ha : a < l + m + n)
    (hv : (hoops l m n).Below (.node a) v) : ∃ s < l + m + n, v = .node s := by
  induction hv with
  | root => exact ⟨a, ha, rfl⟩
  | marked _ ih =>
    obtain ⟨_, _, heq⟩ := ih
    cases heq
  | content _ hcell hmem _ => exact contents_hoops hcell hmem

theorem comparable_hoops {l m n a : Nat} (ha : a < l + m + n) :
    (hoops l m n).Comparable (.node a) where
  closed r hr := by
    obtain ⟨s, hs, heq⟩ := below_hoops ha hr
    obtain rfl := Value.node.inj heq
    have hlt : r < (hoops l m n).cells.size := by simpa [hoops, hoop, Nat.add_assoc] using hs
    exact ⟨_, Array.getElem?_eq_getElem hlt⟩
  boxed y hy := by
    obtain ⟨_, _, heq⟩ := below_hoops ha hy
    cases heq

theorem ncard_hoops_le {l m n a : Nat} (ha : a < l + m + n) :
    {r | (hoops l m n).Below (.node a) (.node r)}.ncard ≤ l + m + n := by
  have hsub : {r | (hoops l m n).Below (.node a) (.node r)} ⊆ Finset.range (l + m + n) := by
    intro r hr
    obtain ⟨s, hs, heq⟩ := below_hoops ha hr
    obtain rfl := Value.node.inj heq
    exact Finset.mem_coe.2 (Finset.mem_range.2 hs)
  have hle := Set.ncard_le_ncard hsub (Finset.finite_toSet _)
  rwa [Set.ncard_coe_finset, Finset.card_range] at hle

theorem structurallyEqual_trans_hoops :
    ((hoops 2 1 3).Comparable (.node 0) ∧ (hoops 2 1 3).Comparable (.node 2)) ∧
      (hoops 2 1 3).structurallyEqual (.node 0) (.node 2) = true ∧
      (hoops 2 1 3).structurallyEqual (.node 2) (.node 3) = true ∧
      (hoops 2 1 3).NestsWithin 1024 (.node 0) (.node 3) ∧
      (hoops 2 1 3).structurallyEqual (.node 0) (.node 3) = true := by
  have hx := comparable_hoops (l := 2) (m := 1) (n := 3) (a := 0) (by omega)
  have hy := comparable_hoops (l := 2) (m := 1) (n := 3) (a := 2) (by omega)
  have hz := comparable_hoops (l := 2) (m := 1) (n := 3) (a := 3) (by omega)
  have hxy : (hoops 2 1 3).structurallyEqual (.node 0) (.node 2) = true := by decide +kernel
  have hyz : (hoops 2 1 3).structurallyEqual (.node 2) (.node 3) = true := by decide +kernel
  have hcard := Nat.mul_le_mul (ncard_hoops_le (l := 2) (m := 1) (n := 3) (a := 0) (by omega))
    (ncard_hoops_le (l := 2) (m := 1) (n := 3) (a := 3) (by omega))
  have hnests := nestsWithin_of_card_le hx hz (Nat.le_trans hcard (show 6 * 6 ≤ 1024 by omega))
  exact ⟨⟨hx, hy⟩, hxy, hyz, hnests, structurallyEqual_trans hx hy hxy hyz hnests⟩

/-- A ring of 32 containers and one of 33 are both equal to a ring of one, but to compare them
nests 1056 pairs. -/
theorem not_structurallyEqual_hoops :
    ((hoops 32 1 33).Comparable (.node 0) ∧ (hoops 32 1 33).Comparable (.node 32) ∧
      (hoops 32 1 33).Comparable (.node 33)) ∧
      (∀ a < 66, {r | (hoops 32 1 33).Below (.node a) (.node r)}.ncard ≤ 1024) ∧
      (hoops 32 1 33).structurallyEqual (.node 0) (.node 32) = true ∧
      (hoops 32 1 33).structurallyEqual (.node 32) (.node 33) = true ∧
      (hoops 32 1 33).structurallyEqual (.node 0) (.node 33) = false := by
  have hfirst : (hoops 32 1 33).IsRing 0 32 := by
    unfold IsRing
    decide +kernel
  have hsecond : (hoops 32 1 33).IsRing 32 1 := by
    unfold IsRing
    decide +kernel
  have hthird : (hoops 32 1 33).IsRing 33 33 := by
    unfold IsRing
    decide +kernel
  refine ⟨⟨comparable_hoops (by omega), comparable_hoops (by omega), comparable_hoops (by omega)⟩,
    fun a ha => Nat.le_trans (ncard_hoops_le ha) (by omega), ?_, ?_, ?_⟩
  · exact (structurallyEqual_rings_iff hfirst hsecond (by omega) (by omega)
      (fun i hi j hj => by omega)).2 (by decide)
  · exact (structurallyEqual_rings_iff hsecond hthird (by omega) (by omega)
      (fun i hi j hj => by omega)).2 (by decide)
  · rw [Bool.eq_false_iff, ne_eq, structurallyEqual_rings_iff hfirst hthird (by omega) (by omega)
      fun i hi j hj => by omega]
    decide

end Heap

end TypeDescription
