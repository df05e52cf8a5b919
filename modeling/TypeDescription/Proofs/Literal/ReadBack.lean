import TypeDescription.Depth
import TypeDescription.Proofs.Graph.Tokens
import TypeDescription.Fixture.Query
import TypeDescription.Proofs.Literal.Finished
import TypeDescription.Proofs.Reflected.Calls

/-!
# Literals read back

A literal is written as JSON, read back and decoded.  `Store.decode_literal` says
that this succeeds, and that nothing passes for a token in the graph that comes
out, whatever names and texts the described program has.

The encoded graph, which a literal is written for, holds three sorts of values
(`Origin`): the container of a place, a token with the trail of a place, and what
was in the graph before.  In what is written for the first and the last nothing
but a container stands under `$ref`, since a text is never put there; what is
written for a token is that token, and where its path leads stands what was
written for the place.
-/

namespace TypeDescription

/-! ## What stands in a written container -/

namespace Heap

/-- The values of a container that are written stand under the same steps. -/
theorem forall₂_slots_of_viewToLiteral {child : Value Expression → Except LiteralError Literal}
    {view : View Expression} {M : Literal} (h : viewToLiteral child view = .ok M) :
    ∃ slots, slots.Sublist view.slots ∧
      (∀ slot ∈ view.slots, slot.2.isDefined = true → slot ∈ slots) ∧
      List.Forall₂ (fun slot part => slot.1 = part.1 ∧ child slot.2 = .ok part.2)
        slots M.slots := by
  cases view with
  | list items =>
    obtain ⟨written, rfl, hall⟩ := forall₂_of_viewToLiteral_list h
    exact ⟨_, .refl _, fun slot hslot _ => hslot, forall₂_ofIndex hall 0⟩
  | named entries =>
    obtain ⟨fields, rfl, hall⟩ := forall₂_of_viewToLiteral_named h
    refine ⟨(entries.filter fun entry => entry.2.isDefined).map fun entry =>
      (.key entry.1, entry.2), List.filter_sublist.map _, fun slot hslot hdefined => ?_, ?_⟩
    · obtain ⟨entry, hentry, rfl⟩ := List.mem_map.1 hslot
      exact List.mem_map_of_mem (List.mem_filter.2 ⟨hentry, hdefined⟩)
    · refine List.forall₂_map_left_iff.2
        (List.forall₂_map_right_iff.2 (hall.imp fun _ _ hfield => ?_))
      exact ⟨congrArg Step.key hfield.1.symm, hfield.2⟩

/-- What is written with levels left is written for a container, or has nothing in it. -/
theorem toLiteralAt_cases {k : Heap Expression} {limit : UInt32} {left : Nat}
    {v : Value Expression} {M : Literal} (h : k.toLiteralAt limit left v = .ok M) :
    (∃ r left', v.unwrap = .node r ∧ left = left' + 1 ∧
      viewToLiteral (k.toLiteralAt limit left') (k.view r) = .ok M) ∨
    v.unwrap.isContainer = false ∧ ((∃ s, M = .leaf s) ∨ M = .object []) := by
  unfold toLiteralAt at h
  cases hv : v.unwrap with
  | node r =>
    rw [hv] at h
    cases left with
    | zero => cases h
    | succ left => exact .inl ⟨r, left, rfl, rfl, h⟩
  | boxed p =>
    rw [hv] at h
    obtain rfl := Except.ok.inj h
    exact .inr ⟨rfl, .inl (by cases p <;> exact ⟨_, rfl⟩)⟩
  | date ms =>
    rw [hv] at h
    exact .inr ⟨rfl, .inr (Except.ok.inj h).symm⟩
  | regExp source flags =>
    rw [hv] at h
    exact .inr ⟨rfl, .inr (Except.ok.inj h).symm⟩
  | _ =>
    rw [hv] at h
    exact .inr ⟨rfl, .inl ⟨_, (Except.ok.inj h).symm⟩⟩

/-! ## The values of an encoded graph -/

/-- A value of an encoded graph is the container of a place, a token with the trail of a
place, or a value that the graph had before. -/
inductive Origin (h k : Heap Expression) (places : List Place) : Value Expression → Prop
  | place {p : Place} : p ∈ places → Origin h k places (.node p.target)
  | token {p : Place} {q : Ref} : p ∈ places → k.cell? q = some (tokenCell p.trail) →
      Origin h k places (.node q)
  | graph {v : Value Expression} : v.Below h.size → Origin h k places v

section Origin

variable {h k : Heap Expression} {limit : UInt32} {room left : Nat} {places : List Place}
  {seen : Seen} {x t u v : Value Expression} {L M : Literal}

/-- What stands for a value of the graph. -/
theorem Entered.origin_of_stands (E : h.Entered h [] [] room x places k seen t) {trail : Trail}
    (hst : k.Stands places seen trail v u) (hv : v.Below h.size) : h.Origin k places u := by
  cases hst with
  | leaf _ =>
    refine .graph fun r hr => hv r ?_
    rw [← hr]
    cases v <;> rfl
  | first hmem => exact .place hmem
  | again hseen _ hcell =>
    rw [E.seen_eq] at hseen
    obtain ⟨p, hp, hvisit⟩ := List.mem_map.1 hseen
    obtain ⟨rfl, rfl⟩ := Prod.mk.inj hvisit
    exact .token hp hcell

/-- The values in a container of the graph are values of it. -/
theorem Proper.below_of_mem_values (hh : h.Proper) {r : Ref} {u : Value Expression}
    (hu : u ∈ (h.view r).values) : u.Below h.size := by
  rw [values_view, slots] at hu
  cases hcell : h.cell? r with
  | none => simp [hcell] at hu
  | some c =>
    rw [hcell] at hu
    exact hh.below r c hcell u hu

/-- The values in a container of an encoded graph are values of one. -/
theorem Entered.origin_of_mem_values (E : h.Entered h [] [] room x places k seen t)
    (hh : h.Proper) (hv : h.Origin k places v) {r : Ref} (hr : v.unwrap = .node r)
    {u : Value Expression} (hu : u ∈ (k.view r).values) : h.Origin k places u := by
  cases hv with
  | @place p hp =>
    obtain rfl := Value.node.inj hr
    obtain ⟨us, hcell, hall⟩ := (E.walk.images p hp).forall₂
    have hus : u ∈ us := by
      rwa [values_view, slots, hcell, Option.map_some, Option.getD_some,
        View.slots_fill (hh.nodup_names _) (by rw [View.length_slots, hall.length_eq])] at hu
    obtain ⟨w, hw, trail, hst⟩ := exists_mem_of_forall₂ hall u hus
    exact E.origin_of_stands hst (hh.below_of_mem_values hw)
  | token _ hcell =>
    obtain rfl := Value.node.inj hr
    rw [view_tokenCell hcell] at hu
    obtain rfl := List.mem_singleton.1 hu
    exact .graph fun r hr => by cases hr
  | graph hbelow =>
    refine .graph (hh.below_of_mem_values (r := r) ?_)
    rwa [values_view, ← E.walk.within.slots (hbelow r hr), ← values_view]

/-- A container of an encoded graph is plain or a token. -/
theorem Entered.plain_or_token (E : h.Entered h [] [] room x places k seen t)
    (hh : h.Proper) (hv : h.Origin k places v) {r : Ref} (hr : v.unwrap = .node r) :
    (∀ c, k.cell? r = some c → c.Plain) ∨ ∃ p ∈ places, k.cell? r = some (tokenCell p.trail) := by
  cases hv with
  | place hp =>
    obtain rfl := Value.node.inj hr
    exact .inl (hh.plain_target (E.walk.images _ hp))
  | token hp hcell =>
    obtain rfl := Value.node.inj hr
    exact .inr ⟨_, hp, hcell⟩
  | graph hbelow =>
    refine .inl fun c hc => hh.plain r c ?_
    rw [← E.walk.within.cell?_eq r (hbelow r hr), hc]

/-- No container of an encoded graph has a name twice. -/
theorem Entered.nodup_names (E : h.Entered h [] [] room x places k seen t)
    (hh : h.Proper) (hv : h.Origin k places v) {r : Ref} (hr : v.unwrap = .node r) :
    (k.view r).names.Nodup := by
  rcases E.plain_or_token hh hv hr with hplain | ⟨p, _, hcell⟩
  · exact nodup_names_of_plain hplain
  · rw [view_tokenCell hcell]
    exact List.nodup_singleton _

/-! ## The literal of an encoded graph -/

/-- No object in what is written has a name twice. -/
theorem Entered.tidy_written (E : h.Entered h [] [] room x places k seen t) (hh : h.Proper)
    (hv : h.Origin k places v) (hM : k.toLiteralAt limit left v = .ok M) :
    M.Tidy fun _ => True := by
  induction left generalizing v M with
  | zero =>
    rcases toLiteralAt_cases hM with ⟨_, _, _, hleft, _⟩ | ⟨_, ⟨s, rfl⟩ | rfl⟩
    · cases hleft
    · exact .leaf trivial
    · exact .object List.nodup_nil fun _ hitem => absurd hitem List.not_mem_nil
  | succ left ih =>
    rcases toLiteralAt_cases hM with ⟨r, left', hr, hleft, hview⟩ | ⟨_, ⟨s, rfl⟩ | rfl⟩
    · obtain rfl := Nat.succ.inj hleft
      obtain ⟨slots, hsublist, _, hall⟩ := forall₂_slots_of_viewToLiteral hview
      refine Document.tidy_of_slots (fun _ _ => trivial) ?_ fun part hpart => ?_
      · have hsteps : List.Forall₂ (· = ·) (slots.map Prod.fst) (M.slots.map Prod.fst) :=
          List.forall₂_map_left_iff.2 (List.forall₂_map_right_iff.2 (hall.imp fun _ _ h => h.1))
        rw [List.forall₂_eq_eq_eq] at hsteps
        rw [← hsteps]
        exact .sublist (hsublist.map _) (View.nodup_steps (E.nodup_names hh hv hr))
      · obtain ⟨slot, hslot, _, hwritten⟩ := exists_mem_of_forall₂ hall part hpart
        have hmem := View.mem_values_of_mem_slots (hsublist.subset hslot)
        exact ih (E.origin_of_mem_values hh hv hr hmem) hwritten
    · exact .leaf trivial
    · exact .object List.nodup_nil fun _ hitem => absurd hitem List.not_mem_nil

/-- What stands in what is written is written for a value of the encoded graph, with fewer
levels left the further inside it stands. -/
theorem Entered.written_of_site (E : h.Entered h [] [] room x places k seen t) (hh : h.Proper)
    (hv : h.Origin k places v) (hL : k.toLiteralAt limit left v = .ok L) {trail : Trail}
    (hsite : L.Site trail M) :
    ∃ u left', h.Origin k places u ∧ k.toLiteralAt limit left' u = .ok M ∧
      trail.length + left' = left := by
  induction hsite with
  | root => exact ⟨v, left, hv, hL, Nat.zero_add _⟩
  | @slot trail step N M _ hslot ih =>
    obtain ⟨u, left', hu, hN, hlen⟩ := ih
    rcases toLiteralAt_cases hN with ⟨r, left'', hr, rfl, hview⟩ | ⟨_, ⟨s, rfl⟩ | rfl⟩
    · obtain ⟨slots, hsublist, _, hall⟩ := forall₂_slots_of_viewToLiteral hview
      obtain ⟨slot, hslot, _, hwritten⟩ := exists_mem_of_forall₂ hall _ hslot
      have hmem := View.mem_values_of_mem_slots (hsublist.subset hslot)
      refine ⟨slot.2, left'', E.origin_of_mem_values hh hu hr hmem, hwritten, ?_⟩
      rw [← hlen, List.length_cons]
      omega
    · cases hslot
    · cases hslot

/-- Nothing but a container stands under `$ref` in what is written for a value of the
encoded graph, or it is a token with the trail of a place. -/
theorem Entered.ref_or_token (E : h.Entered h [] [] room x places k seen t) (hh : h.Proper)
    (hv : h.Origin k places v) (hM : k.toLiteralAt limit left v = .ok M) :
    (∀ s, M.get? refKey ≠ some (.leaf s)) ∨ ∃ p ∈ places, M = Literal.token p.trail.reverse := by
  rcases toLiteralAt_cases hM with ⟨r, left', hr, rfl, hview⟩ | ⟨_, ⟨s, rfl⟩ | rfl⟩
  · have hwritten : k.Writes limit (.node r) M := .of_unwrap ⟨_, hM⟩ hr.symm
    rcases E.plain_or_token hh hv hr with hplain | ⟨p, hp, hcell⟩
    · exact .inl (hwritten.get?_refKey_ne hplain)
    · exact .inr ⟨p, hp, hwritten.eq_token hcell⟩
  · exact .inl fun s => nofun
  · exact .inl fun s => nofun

/-- Where the trail of a place leads stands what is written for its container, with as many
levels left as the trail is short of. -/
theorem Entered.site_trail (E : h.Entered h [] [] room x places k seen t) (hh : h.Proper)
    (hL : k.toLiteralAt limit left t = .ok L) :
    ∀ p ∈ places, ∃ M left', L.Site p.trail M ∧
      k.toLiteralAt limit left' (.node p.target) = .ok M ∧ p.trail.length + left' = left := by
  have himage : ∀ p ∈ places, h.Image k places (places.map Place.visit) p :=
    fun p hp => E.seen_eq ▸ E.walk.images p hp
  refine E.grown.induct
    (motive := fun p => ∃ M left', L.Site p.trail M ∧
      k.toLiteralAt limit left' (.node p.target) = .ok M ∧ p.trail.length + left' = left) ?_ ?_
  · rintro p hp ⟨htrail, hx⟩
    rw [E.target_eq hp htrail hx] at hL
    exact ⟨L, left, htrail ▸ .root, hL, by rw [htrail]; exact Nat.zero_add _⟩
  · rintro p hp p' hp' ⟨step, htrail, hslot⟩ ⟨M, left', hsite, hwritten, hlen⟩
    obtain ⟨i, u, hmem, hst⟩ := (himage p hp).mem_slots (hh.nodup_names _) hslot
    obtain rfl : u = .node p'.target := Stands.eq_target E.source_inj hp' (htrail ▸ hst)
    rcases toLiteralAt_cases hwritten with ⟨r, left', hr, rfl, hview⟩ | ⟨hscalar, _⟩
    · obtain rfl := Value.node.inj hr
      obtain ⟨slots, _, hdefined, hall⟩ := forall₂_slots_of_viewToLiteral hview
      obtain ⟨⟨step', M'⟩, hM', heq, hwritten'⟩ :=
        exists_mem_of_forall₂ hall.flip _ (hdefined _ hmem rfl)
      obtain rfl : step = step' := heq
      refine ⟨M', left', htrail ▸ .slot hsite hM', hwritten', ?_⟩
      rw [htrail, List.length_cons]
      omega
    · cases hscalar

end Origin

end Heap

/-! ## The literal read back -/

namespace Literal

/-- A literal that is written as JSON, where the last field of a repeated name counts, and
read back. -/
def readBack {X : Type} (L : Literal) : Encoded X :=
  fromJson (Document.merge L.toJson)

section ReadBack

variable {X : Type} {L M : Literal}

/-- A literal without repeated names is read back leaf by leaf. -/
theorem readBack_eq (hL : L.Tidy fun _ => True) :
    (L.readBack : Encoded X) = L.map fun s => Value.ofScalar s.toJson := by
  have htidy : L.toJson.Tidy fun _ => True := hL.map
  rw [readBack, htidy.merge_eq, fromJson, toJson, Document.map_map]

theorem tidy_readBack (hL : L.Tidy fun _ => True) :
    (L.readBack : Encoded X).Tidy fun v => v.isContainer = false ∧ v.exempt? = none := by
  rw [readBack_eq hL]
  refine Document.Tidy.map (hL.imp fun s _ => ?_)
  cases s.toJson <;> exact ⟨rfl, rfl⟩

/-- Where nothing but a container stands under `$ref` no token is read. -/
theorem path?_map_eq_none {f : Scalar → Value X} (hM : ∀ s, M.get? refKey ≠ some (.leaf s)) :
    Encoded.path? (M.map f) = none := by
  unfold Encoded.path?
  rw [Document.get?_map]
  cases hget : M.get? refKey with
  | none => rfl
  | some N =>
    cases N with
    | leaf s => exact absurd hget (hM s)
    | array _ => rfl
    | object _ => rfl

/-- A token is read back as a token. -/
theorem token_map (first : Path) :
    ((token first).map fun s => Value.ofScalar s.toJson) = (Encoded.token first : Encoded X) :=
  rfl

end ReadBack

end Literal

namespace Heap

section ReadBack

variable {X : Type} {h k : Heap Expression} {codec depth : UInt32} {x t : Value Expression}
  {L : Literal}

/-- What is read back of the literal of a graph has tokens for containers that are no
tokens, and nothing in it lies deeper than the limit of the literal. -/
theorem readBack_of_encoded (hh : h.Proper) (hx : x.Below h.size)
    (henc : h.encoded codec x = .ok (t, k)) (hL : k.toLiteral depth t = .ok L) :
    L.Tidy (fun _ => True) ∧ (L.readBack : Encoded X).Referring ∧
      ∀ trail e, (L.readBack : Encoded X).Site trail e → trail.length ≤ depth.toNat := by
  obtain ⟨places, seen, E⟩ := encoded_walk (fun r _ => hh.nodup_names r) henc
  have hroot : h.Origin k places t := E.origin_of_stands E.stands hx
  have htidy := E.tidy_written hh hroot hL
  rw [Literal.readBack_eq htidy]
  refine ⟨htidy, fun trail e hsite htoken => ?_, fun trail e hsite => ?_⟩
  · obtain ⟨M, hM, rfl⟩ := hsite.of_map
    obtain ⟨v, left, hv, hwritten, _⟩ := E.written_of_site hh hroot hL hM
    rcases E.ref_or_token hh hv hwritten with hfree | ⟨p, hp, rfl⟩
    · exact absurd (Literal.path?_map_eq_none hfree) htoken
    · obtain ⟨N, left', hN, hwritten, _⟩ := E.site_trail hh hL p hp
      have hplace : k.Writes depth (.node p.target) N := ⟨left', hwritten⟩
      have hfree := hplace.get?_refKey_ne (hh.plain_target (E.walk.images p hp))
      refine ⟨p.trail, _, hN.map _, ?_, Literal.path?_map_eq_none hfree, Literal.token_map _⟩
      rw [Document.isLeaf_map]
      cases N with
      | leaf s => cases hplace.isContainer_eq_false
      | array _ => rfl
      | object _ => rfl
  · obtain ⟨M, hM, rfl⟩ := hsite.of_map
    obtain ⟨v, left, _, _, hlen⟩ := E.written_of_site hh hroot hL hM
    omega

/-- The literal of a graph is read back and decoded, and then nothing passes for a
token. -/
theorem decode_readBack (hh : h.Proper) (hx : x.Below h.size)
    (henc : h.encoded codec x = .ok (t, k)) (hL : k.toLiteral depth t = .ok L) {limit : UInt32}
    (hlimit : depth < limit) (k₀ : Heap X) :
    let planted := plant L.readBack k₀
    ∃ k', planted.2.decode limit planted.1 = (.ok (), k') ∧ k'.tokenPath? planted.1 = none ∧
      ∀ r, k'.Reaches planted.1 r → ∀ v ∈ (k'.view r).values, k'.tokenPath? v = none := by
  obtain ⟨htidy, href, hdepth⟩ := readBack_of_encoded (X := X) hh hx henc hL
  refine decode_plant (Literal.tidy_readBack htidy) href (fun trail e hsite _ => ?_) k₀
  exact Nat.lt_of_le_of_lt (hdepth trail e hsite) hlimit

end ReadBack

end Heap

/-- Whatever names and texts the described types have: the literal of a type, written
as JSON and read back, decodes, and in the graph that comes out nothing passes for a
token. -/
theorem Store.decode_literal {X : Type} {store : Store} {n : NodeRef}
    {modifiers : Option Modifiers} {L : Literal}
    (hL : store.literal .standard n modifiers = .ok L) (k : Heap X) :
    let planted := Heap.plant L.readBack k
    ∃ k', planted.2.decode DepthProfile.codec.limit planted.1 = (.ok (), k') ∧
      k'.tokenPath? planted.1 = none ∧
      ∀ r, k'.Reaches planted.1 r → ∀ v ∈ (k'.view r).values, k'.tokenPath? v = none := by
  obtain ⟨v, g, t, k₁, hrun, hencoded, hwritten⟩ := LiteralGenerator.literal_eq_ok hL
  obtain ⟨hg, hbelow, _⟩ := (built_empty fun _ => False).of_make (c := ⟨store, n, _⟩) hrun
  exact Heap.decode_readBack hg.proper hbelow hencoded hwritten (by decide) k

/-- A program with a class that has a property `$ref` of the path of the root, and contains
itself under a name of brackets and quotes. -/
def forgery : Program where
  types := [
    ⟨⟨1⟩, .declared false ["Forgery.$ref", "Forgery.next"] [], some "Forgery", none, none⟩,
    ⟨⟨2⟩, .stringLiteral "$", none, none, none⟩]
  symbols := Table.ofList [
    ("Forgery", ⟨"Forgery", ⟨none, .classSymbol, none, [], none, none, none, []⟩, .none⟩),
    ("Forgery.$ref", ⟨"$ref", ⟨none, .property, some ⟨2⟩, [], none, none, none, []⟩, .none⟩),
    ("Forgery.next", ⟨"\"][\"", ⟨none, .property, some ⟨1⟩, [], none, none, none, []⟩, .none⟩)]

theorem Store.decode_literal_forgery :
    let r := (Reflector.ofLimit 256).after forgery.host (.classType default ⟨1⟩)
    Answer.node? ((Reflector.ofLimit 256).call forgery.host (.classType default ⟨1⟩)).1 = some 0 ∧
      ∃ L, r.store.literal .standard 0 none = .ok L ∧
        (L.lookup ["properties", "$ref", "value"]).bind Literal.string? = some "$" ∧
        (L.lookup ["properties", "\"][\""]).bind Literal.refPath? = some "$" ∧
        let planted := Heap.plant (X := Unit) L.readBack .empty
        ∃ k', planted.2.decode DepthProfile.codec.limit planted.1 = (.ok (), k') ∧
          k'.tokenPath? planted.1 = none ∧
          ∀ r, k'.Reaches planted.1 r → ∀ v ∈ (k'.view r).values, k'.tokenPath? v = none := by
  intro r
  have hmade : ((r.store.literal .standard 0 none).toOption.map fun L =>
      ((L.lookup ["properties", "$ref", "value"]).bind Literal.string?,
        (L.lookup ["properties", "\"][\""]).bind Literal.refPath?)) =
      some (some "$", some "$") := by
    decide +kernel
  cases hL : r.store.literal .standard 0 none with
  | error e =>
    rw [hL] at hmade
    cases hmade
  | ok L =>
    rw [hL] at hmade
    obtain ⟨htext, hpath⟩ := Prod.mk.inj (Option.some.inj hmade)
    exact ⟨by decide +kernel, L, rfl, htext, hpath, decode_literal hL .empty⟩

end TypeDescription
