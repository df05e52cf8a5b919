import TypeDescription.Graph.Decode
import TypeDescription.Proofs.Graph.Decoding
import TypeDescription.Proofs.Graph.Interchange
import TypeDescription.Proofs.Literal.Counted
import TypeDescription.Proofs.Outcomes

/-!
# Higher limits

The limit of a walk decides whether the walk fails, and nothing else: it stands in no result, and
the levels that are left do not say which way a walk takes.  So a walk that succeeds within a limit
does the same within a higher one (`unchanged_of_limit_le`).

Each walk is gone through once, along its definition, beside the same walk with more levels left
(`Keeps`); only where no level is left do the two differ, and there the first one fails.
-/

namespace TypeDescription

variable {X : Type}

namespace Heap

variable {limit limit' : UInt32} {room room' : Nat}

/-! ## JSON and literals -/

theorem keeps_viewToJson {child child' : Value X → Except CodecError (Option Json)}
    (hchild : ∀ v, Keeps (child v) (child' v)) (view : View X) :
    Keeps (viewToJson child view) (viewToJson child' view) := by
  cases view with
  | list items => exact (Keeps.mapM items hchild).bind fun _ => .refl _
  | named fields =>
    refine Keeps.bind (Keeps.mapM fields fun field => ?_) fun _ => .refl _
    exact (hchild field.2).bind fun _ => .refl _

theorem keeps_toJsonAt (h : Heap X) (hroom : room ≤ room') (v : Value X) :
    Keeps (h.toJsonAt limit room v) (h.toJsonAt limit' room' v) := by
  induction room using Nat.strongRecOn generalizing room' v with
  | ind room ih =>
    unfold toJsonAt
    cases v.unwrap with
    | node r =>
      cases room with
      | zero =>
        intro _ _ _ hok
        cases hok
      | succ room =>
        obtain ⟨room', rfl⟩ := Nat.exists_eq_add_one_of_ne_zero (Nat.ne_zero_of_lt hroom)
        refine (keeps_viewToJson (fun u => ?_) _).bind fun _ => .refl _
        exact ih room (Nat.lt_succ_self _) (Nat.le_of_succ_le_succ hroom) u
    | _ => exact .refl _

theorem keeps_viewToLiteral {child child' : Value Expression → Except LiteralError Literal}
    (hchild : ∀ v, Keeps (child v) (child' v)) (view : View Expression) :
    Keeps (viewToLiteral child view) (viewToLiteral child' view) := by
  cases view with
  | list items => exact (Keeps.mapM items hchild).bind fun _ => .refl _
  | named fields =>
    refine Keeps.bind (Keeps.mapM _ fun field => ?_) fun _ => .refl _
    exact (hchild field.2).bind fun _ => .refl _

theorem keeps_toLiteralAt (h : Heap Expression) (hroom : room ≤ room') (v : Value Expression) :
    Keeps (h.toLiteralAt limit room v) (h.toLiteralAt limit' room' v) := by
  induction room using Nat.strongRecOn generalizing room' v with
  | ind room ih =>
    unfold toLiteralAt
    cases v.unwrap with
    | node r =>
      cases room with
      | zero =>
        intro _ _ _ hok
        cases hok
      | succ room =>
        obtain ⟨room', rfl⟩ := Nat.exists_eq_add_one_of_ne_zero (Nat.ne_zero_of_lt hroom)
        refine keeps_viewToLiteral (fun u => ?_) _
        exact ih room (Nat.lt_succ_self _) (Nat.le_of_succ_le_succ hroom) u
    | _ => exact .refl _

/-! ## Encoding -/

theorem keeps_encodeView {child child' : Trail → Value X → Encoder (Encoded X)}
    (hchild : ∀ trail v, Keeps (child trail v) (child' trail v)) (trail : Trail) (view : View X) :
    Keeps (encodeView child trail view) (encodeView child' trail view) := by
  rw [encodeView_eq, encodeView_eq]
  refine Keeps.bind (Keeps.mapM view.slots fun slot => ?_) fun _ => .refl _
  exact hchild (slot.1 :: trail) slot.2

theorem keeps_encodeAt (h : Heap X) (hroom : room ≤ room') (trail : Trail) (v : Value X) :
    Keeps (h.encodeAt limit room trail v) (h.encodeAt limit' room' trail v) := by
  induction room using Nat.strongRecOn generalizing room' trail v with
  | ind room ih =>
    unfold encodeAt
    cases v with
    | node r =>
      refine Keeps.bind (.refl _) fun seen => ?_
      split
      · exact .refl _
      · refine Keeps.bind (.refl _) fun _ => ?_
        cases room with
        | zero =>
          intro _ _ _ hok
          cases hok
        | succ room =>
          obtain ⟨room', rfl⟩ := Nat.exists_eq_add_one_of_ne_zero (Nat.ne_zero_of_lt hroom)
          refine keeps_encodeView (fun trail u => ?_) trail _
          exact ih room (Nat.lt_succ_self _) (Nat.le_of_succ_le_succ hroom) trail u
    | _ => exact .refl _

/-! ## Decoding -/

theorem keeps_decodeSlot {child child' : Value X → Decoder X Unit}
    (hchild : ∀ v, Keeps (child v) (child' v)) (root : Value X) (r : Ref) (i : Nat) :
    Keeps (decodeSlot child root r i) (decodeSlot child' root r i) := by
  unfold decodeSlot
  refine Keeps.bind (.refl _) fun s => ?_
  dsimp only
  split
  · exact .refl _
  · split
    · exact hchild _
    · exact .refl _

theorem keeps_decodeAt (root : Value X) (hroom : room ≤ room') (v : Value X) :
    Keeps (decodeAt limit root room v) (decodeAt limit' root room' v) := by
  induction room using Nat.strongRecOn generalizing room' v with
  | ind room ih =>
    unfold decodeAt
    cases v.unwrap with
    | node r =>
      refine Keeps.bind (.refl _) fun s => ?_
      split
      · exact .refl _
      · refine Keeps.bind (.refl _) fun _ => ?_
        cases room with
        | zero =>
          intro _ _ _ hok
          cases hok
        | succ room =>
          obtain ⟨room', rfl⟩ := Nat.exists_eq_add_one_of_ne_zero (Nat.ne_zero_of_lt hroom)
          refine Keeps.forM _ fun i => keeps_decodeSlot (fun u => ?_) root r i
          exact ih room (Nat.lt_succ_self _) (Nat.le_of_succ_le_succ hroom) u
    | _ => exact .refl _

/-! ## The operations -/

/-- What a graph is encoded, decoded, written as JSON or written as a literal to within a limit, it
is within each higher limit as well: with the same result, and the same graph left by the
decoding. -/
theorem unchanged_of_limit_le {m m' : UInt32} (hm : m ≤ m') :
    (∀ {X : Type} (h : Heap X) (x : Value X),
      (∀ result, h.encoded m x = .ok result → h.encoded m' x = .ok result) ∧
      (∀ k, h.decode m x = (.ok (), k) → h.decode m' x = (.ok (), k)) ∧
      ∀ json, h.toJson m x = .ok json → h.toJson m' x = .ok json) ∧
    ∀ (h : Heap Expression) (x : Value Expression) (L : Literal) (c : DepthCounter),
      (h.convert x).run.run (.ofLimit m) = (.ok L, c) →
        (h.convert x).run.run (.ofLimit m') = (.ok L, { c with limit := m' }) := by
  have hroom : m.toNat ≤ m'.toNat := UInt32.le_iff_toNat_le.1 hm
  refine ⟨fun h x => ⟨?_, ?_, ?_⟩, ?_⟩
  · intro result hok
    obtain ⟨tree, htree, rfl⟩ := map_eq_ok.1 hok
    obtain ⟨⟨tree, seen⟩, hrun, rfl⟩ := map_eq_ok.1 htree
    exact map_eq_ok.2 ⟨tree, map_eq_ok.2
      ⟨(tree, seen), keeps_encodeAt h hroom [] x [] tree seen hrun, rfl⟩, rfl⟩
  · intro k hok
    simp only [decode] at hok ⊢
    rcases hrun : (decodeAt m x m.toNat x).run.run ⟨h, []⟩ with ⟨outcome, s⟩
    rw [hrun] at hok
    obtain ⟨rfl, rfl⟩ := Prod.mk.inj hok
    rw [keeps_decodeAt x hroom x _ () s hrun]
  · intro json hok
    obtain ⟨form, hform, hjson⟩ := bind_eq_ok.1 hok
    exact bind_eq_ok.2 ⟨form, keeps_toJsonAt h hroom x () form () hform, hjson⟩
  · intro h x L c hok
    rw [run_convert_ofLimit] at hok ⊢
    obtain ⟨hL, rfl⟩ := Prod.mk.inj hok
    have hL' : h.toLiteral m' x = .ok L := keeps_toLiteralAt h hroom x () L () hL
    rw [hL, hL']
    rfl

/-- An array that holds an object, a token for it and the object again. -/
def pantry : Heap Expression :=
  ⟨#[.array [.node 1, .node 2, .node 1], .object (Table.ofList [("jam", .number (Double.ofInt 3))]),
    .object (Table.ofList [(refKey, .string "$[0]")])]⟩

theorem unchanged_of_limit_le_pantry :
    (2 : UInt32) ≤ 3 ∧
      (∃ result, pantry.encoded 2 (.node 0) = .ok result ∧
        pantry.encoded 3 (.node 0) = .ok result) ∧
      (∃ k, pantry.decode 2 (.node 0) = (.ok (), k) ∧ pantry.decode 3 (.node 0) = (.ok (), k)) ∧
      (∃ json, pantry.toJson 2 (.node 0) = .ok json ∧ pantry.toJson 3 (.node 0) = .ok json) ∧
      ∃ L, (pantry.convert (.node 0)).run.run (.ofLimit 2) = (.ok L, .ofLimit 2) ∧
        (pantry.convert (.node 0)).run.run (.ofLimit 3) = (.ok L, .ofLimit 3) := by
  have hle : (2 : UInt32) ≤ 3 := by decide
  obtain ⟨hgraph, hliteral⟩ := unchanged_of_limit_le hle
  obtain ⟨hencoded, hdecoded, hjson⟩ := hgraph pantry (.node 0)
  have hsucceed : (pantry.encoded 2 (.node 0)).isOk ∧ (pantry.decode 2 (.node 0)).1.isOk ∧
      (pantry.toJson 2 (.node 0)).isOk ∧ (pantry.toLiteral 2 (.node 0)).isOk := by decide +kernel
  obtain ⟨hencodes, hdecodes, hwrites, hconverts⟩ := hsucceed
  refine ⟨hle, ?_, ?_, ?_, ?_⟩
  · obtain ⟨result, hok⟩ := exists_of_isOk hencodes
    exact ⟨result, hok, hencoded result hok⟩
  · obtain ⟨⟨⟩, hok⟩ := exists_of_isOk hdecodes
    have hrun : pantry.decode 2 (.node 0) = (.ok (), (pantry.decode 2 (.node 0)).2) :=
      Prod.ext hok rfl
    exact ⟨_, hrun, hdecoded _ hrun⟩
  · obtain ⟨json, hok⟩ := exists_of_isOk hwrites
    exact ⟨json, hok, hjson json hok⟩
  · obtain ⟨L, hok⟩ := exists_of_isOk hconverts
    have hrun : (pantry.convert (.node 0)).run.run (.ofLimit 2) = (.ok L, .ofLimit 2) := by
      rw [run_convert_ofLimit, hok]
      rfl
    exact ⟨L, hrun, hliteral pantry (.node 0) L _ hrun⟩

end Heap

end TypeDescription
