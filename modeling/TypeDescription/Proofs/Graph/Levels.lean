import TypeDescription.Proofs.Graph.Emission
import TypeDescription.Proofs.Graph.Tokens

/-!
# How deep encoded graphs nest

A graph is written as JSON if its containers nest at most as deep as the limit; `Heap.Fits` says
so without the limit, behind exempt markers too.  The encoder counts the containers of the graph
that it enters, but not the tokens that it writes, and in JSON a token is an object like others.

`toJson_encoded`: what is encoded within a limit is written within any higher one.  Under the same
limit the text fails exactly where the walk of the encoder comes again to a container at the lowest
level that it may enter, so that a token stands one level below.
-/

namespace TypeDescription

variable {X : Type}

/-! ## Levels of documents -/

/-- Arrays and objects nest at most so many levels deep in a document. -/
inductive Document.Fits {α : Type} : Nat → Document α → Prop
  | leaf {n : Nat} {value : α} : Fits n (.leaf value)
  | node {n : Nat} {d : Document α} : (∀ slot ∈ d.slots, slot.2.Fits n) → Fits (n + 1) d

theorem Encoded.fits_token (path : Path) (n : Nat) :
    (Encoded.token path : Encoded X).Fits (n + 1) := by
  refine .node fun slot hslot => ?_
  obtain rfl := List.mem_singleton.1 hslot
  exact .leaf

/-- What stands in the tree of a container is the tree of one of its values. -/
theorem View.mem_of_mem_slots_assemble {view : View X} {docs : List (Encoded X)}
    {slot : Step × Encoded X} (hslot : slot ∈ (view.assemble docs).slots) : slot.2 ∈ docs := by
  cases view with
  | list items =>
    obtain ⟨⟨item, i⟩, hitem, rfl⟩ := List.mem_map.1 hslot
    exact List.fst_mem_of_mem_zipIdx hitem
  | named fields =>
    rw [assemble, Document.ofFields_eq] at hslot
    obtain ⟨field, hfield, rfl⟩ := List.mem_map.1 hslot
    have hvalue := Table.values_ofList_subset _ (List.mem_map_of_mem hfield)
    obtain ⟨entry, hentry, heq⟩ := List.mem_map.1 hvalue
    exact heq ▸ (List.of_mem_zip hentry).2

/-- Whether JSON has a form for a value that is no container. -/
def Value.isSerializable : Value X → Bool
  | .bigInt _ => false
  | .foreign _ => false
  | _ => true

namespace Heap

/-! ## Levels of graphs -/

/-- Containers nest at most so many levels deep below a value. -/
def Fits (k : Heap X) : Nat → Value X → Prop
  | 0, v => v.unwrap.isContainer = false
  | n + 1, v => ∀ r, v.unwrap = .node r → ∀ u ∈ (k.view r).values, k.Fits n u

section Fits

variable {k : Heap X} {limit limit' : UInt32} {room n : Nat} {u v : Value X} {e : Encoded X}
  {error : CodecError} {json : Option Json}

theorem fits_of_scalar (hv : v.unwrap.isContainer = false) (n : Nat) : k.Fits n v := by
  cases n with
  | zero => exact hv
  | succ n =>
    intro r hr
    rw [hr] at hv
    cases hv

theorem mem_values_of_step? {step : Step} (hu : k.step? v step = some u) :
    ∃ r, v = .node r ∧ u ∈ (k.view r).values := by
  cases v with
  | node r =>
    refine ⟨r, rfl, ?_⟩
    rw [values_view, slots]
    simp only [step?, content?] at hu
    cases hcell : k.cell? r with
    | none => simp [hcell] at hu
    | some c =>
      rw [hcell] at hu
      cases c with
      | array items =>
        obtain ⟨i, _, hi⟩ := Option.bind_eq_some_iff.1 hu
        exact List.mem_of_getElem? hi
      | set items =>
        obtain ⟨i, _, hi⟩ := Option.bind_eq_some_iff.1 hu
        exact List.mem_of_getElem? hi
      | object properties => exact Table.mem_values_of_get? hu
      | map entries =>
        obtain ⟨entry, hentry, rfl⟩ := Option.map_eq_some_iff.1 hu
        have hmem := List.mem_reverse.1 (List.mem_of_find?_eq_some hentry)
        exact List.mem_map_of_mem hmem
  | _ => cases hu

/-- A container at the end of a path lies below as many others. -/
theorem not_fits_of_resolve {path : Path} {q : Ref} (hq : k.resolve v path = some (.node q)) :
    ¬ k.Fits path.length v := by
  induction path generalizing v with
  | nil =>
    obtain rfl := Option.some.inj hq
    exact fun hfits => by cases hfits
  | cons step rest ih =>
    have hsteps : ((k.step? v step).bind fun u => k.resolve u rest) = some (.node q) := hq
    obtain ⟨u, hu, hrest⟩ := Option.bind_eq_some_iff.1 hsteps
    obtain ⟨r, rfl, hmem⟩ := mem_values_of_step? hu
    exact fun hfits => ih hrest (hfits r rfl u hmem)

/-! ## Levels and JSON -/

/-- A value is not written because JSON has no form for it, because it lies too deep, or because
something in it is not written. -/
theorem toJsonAt_eq_error (herror : k.toJsonAt limit room v = .error error) :
    (∃ what, error = .notSerializable what ∧ v.unwrap.isSerializable = false) ∨
    ∃ r, v.unwrap = .node r ∧ (room = 0 ∧ error = .depthExceeded limit ∨
      ∃ left u, room = left + 1 ∧ u ∈ (k.view r).values ∧
        k.toJsonAt limit left u = .error error) := by
  rw [← toJsonAt_unwrap] at herror
  have hplain := v.exempt?_unwrap
  generalize v.unwrap = w at herror hplain ⊢
  cases w with
  | node r =>
    refine .inr ⟨r, rfl, ?_⟩
    cases room with
    | zero => exact .inl ⟨rfl, (Except.error.inj herror).symm⟩
    | succ left =>
      rw [toJsonAt_enter, bind_eq_error] at herror
      rcases herror with herror | ⟨_, _, herror⟩
      · obtain ⟨u, hu, herror⟩ := viewToJson_eq_error herror
        exact .inr ⟨left, u, rfl, hu, herror⟩
      · cases herror
  | exempt inner => cases hplain
  | bigInt digits =>
    refine .inl ⟨.bigInteger, ?_, rfl⟩
    cases room <;> exact (Except.error.inj herror).symm
  | foreign payload =>
    refine .inl ⟨.opaqueExpression, ?_, rfl⟩
    cases room <;> exact (Except.error.inj herror).symm
  | _ => cases room <;> cases herror

/-- What does not nest too deep does not fail for its depth. -/
theorem toJsonAt_of_fits (hv : k.Fits room v) :
    k.toJsonAt limit room v ≠ .error (.depthExceeded limit') := by
  induction room generalizing v with
  | zero =>
    intro herror
    rcases toJsonAt_eq_error herror with ⟨_, hwhat, _⟩ | ⟨r, hr, _⟩
    · cases hwhat
    · rw [Fits, hr] at hv
      cases hv
  | succ room ih =>
    intro herror
    rcases toJsonAt_eq_error herror with
      ⟨_, hwhat, _⟩ | ⟨r, hr, ⟨hroom, _⟩ | ⟨_, u, hroom, hu, herror⟩⟩
    · cases hwhat
    · cases hroom
    · obtain rfl := Nat.succ.inj hroom
      exact ih (hv r hr u hu) herror

/-- What is written does not nest too deep. -/
theorem fits_of_toJsonAt (hok : k.toJsonAt limit room v = .ok json) : k.Fits room v := by
  induction room generalizing v json with
  | zero =>
    rw [← toJsonAt_unwrap] at hok
    cases hv : v.unwrap with
    | node r =>
      rw [hv] at hok
      cases hok
    | _ => exact fits_of_scalar (by rw [hv]; rfl) 0
  | succ room ih =>
    intro r hr u hu
    rw [← toJsonAt_unwrap, hr] at hok
    obtain ⟨_, _, hroom, hview, _⟩ := toJsonAt_node hok
    obtain rfl := Nat.succ.inj hroom
    obtain ⟨_, hok⟩ := viewToJson_eq_ok hview u hu
    exact ih hok

/-! ### Documents in a graph -/

theorem Unfolds.unwrap_eq (hu : k.Unfolds v e) (hplain : e.Tidy fun v => v.exempt? = none) :
    v.unwrap = v := by
  cases hu with
  | leaf _ =>
    cases hplain with
    | leaf hplain => exact Value.unwrap_of_plain hplain
  | array _ _ => rfl
  | object _ _ _ => rfl

theorem Unfolds.isSerializable (hu : k.Unfolds v e)
    (hleaf : e.Tidy fun v => v.isSerializable = true) : v.isSerializable = true := by
  cases hu with
  | leaf _ =>
    cases hleaf with
    | leaf hleaf => exact hleaf
  | array _ _ => rfl
  | object _ _ _ => rfl

/-- A value in a container unfolds to a part of what the container unfolds to. -/
theorem Unfolds.inside {r : Ref} (hu : k.Unfolds (.node r) e) (hmem : u ∈ (k.view r).values) :
    ∃ slot ∈ e.slots, k.Unfolds u slot.2 := by
  rw [← View.slots_snd] at hmem
  obtain ⟨slot, hslot, rfl⟩ := List.mem_map.1 hmem
  obtain ⟨part, hpart, _, hu⟩ := exists_mem_of_forall₂ hu.slots.flip slot hslot
  exact ⟨part, hpart, hu⟩

/-- A graph nests as deep as its document. -/
theorem Unfolds.fits (hu : k.Unfolds v e) (hplain : e.Tidy fun v => v.exempt? = none)
    (hfits : e.Fits n) : k.Fits n v := by
  induction hfits generalizing v with
  | leaf =>
    refine fits_of_scalar ?_ _
    rw [hu.unwrap_eq hplain]
    cases hu with
    | leaf hv => exact hv
  | node _ ih =>
    intro r hr u hmem
    obtain rfl := (hu.unwrap_eq hplain).symm.trans hr
    obtain ⟨slot, hslot, hu⟩ := hu.inside hmem
    exact ih slot hslot hu (hplain.site (.slot .root hslot))

/-- If JSON has a form for all leaves of a document, it is written unless it nests too deep. -/
theorem Unfolds.error_eq (hu : k.Unfolds v e) (hplain : e.Tidy fun v => v.exempt? = none)
    (hleaf : e.Tidy fun v => v.isSerializable = true)
    (herror : k.toJsonAt limit room v = .error error) : error = .depthExceeded limit := by
  induction room generalizing v e with
  | zero =>
    rcases toJsonAt_eq_error herror with ⟨_, _, hform⟩ | ⟨_, _, ⟨_, heq⟩ | ⟨_, _, hroom, _⟩⟩
    · rw [hu.unwrap_eq hplain, hu.isSerializable hleaf] at hform
      cases hform
    · exact heq
    · cases hroom
  | succ room ih =>
    rcases toJsonAt_eq_error herror with
      ⟨_, _, hform⟩ | ⟨r, hr, ⟨hroom, _⟩ | ⟨_, u, hroom, hmem, hinner⟩⟩
    · rw [hu.unwrap_eq hplain, hu.isSerializable hleaf] at hform
      cases hform
    · cases hroom
    · obtain rfl := Nat.succ.inj hroom
      obtain rfl := (hu.unwrap_eq hplain).symm.trans hr
      obtain ⟨slot, hslot, hu⟩ := hu.inside hmem
      exact ih hu (hplain.site (.slot .root hslot)) (hleaf.site (.slot .root hslot)) hinner

end Fits

/-! ## Levels of encoded graphs -/

section Encoded

variable {h k : Heap X} {limit : UInt32} {room n : Nat} {trail : Trail} {v x t : Value X}
  {seen seen' : Seen} {rest stops tour : List (Stop X)} {e : Encoded X} {docs : List (Encoded X)}

/-- A walk goes on behind what is encoded. -/
theorem Tours.of_run_encodeAt (T : h.Tours (seen.map Prod.fst) ((trail, v) :: rest) stops)
    (hrun : (h.encodeAt limit room trail v).run seen = .ok (e, seen')) :
    ∃ here later, stops = here ++ later ∧ h.Tours (seen'.map Prod.fst) rest later := by
  have C := covers_encodeAt h limit room trail v seen rest stops T
  rw [hrun] at C
  cases C with
  | ok hstops T' _ _ => exact ⟨_, _, hstops, T'⟩

/-- What holds of the tree of each stop on an agenda, when the walk comes to it, holds of all
trees. -/
theorem Tours.forall_mapM {P : Encoded X → Prop} {agenda : List (Stop X)}
    (T : h.Tours (seen.map Prod.fst) (agenda ++ rest) stops)
    (hrun : (agenda.mapM fun stop => h.encodeAt limit room stop.1 stop.2).run seen =
      .ok (docs, seen'))
    (hP : ∀ stop ∈ agenda, ∀ seen seen' rest later e, later ⊆ stops →
      h.Tours (seen.map Prod.fst) (stop :: rest) later →
        (h.encodeAt limit room stop.1 stop.2).run seen = .ok (e, seen') → P e) :
    ∀ doc ∈ docs, P doc := by
  induction agenda generalizing seen stops docs with
  | nil =>
    obtain ⟨rfl, _⟩ := run_mapM_nil_eq_ok hrun
    simp
  | cons stop agenda ih =>
    obtain ⟨e, seen₁, docs, hhead, htail, rfl⟩ := run_mapM_cons_eq_ok hrun
    obtain ⟨here, later, rfl, T'⟩ := T.of_run_encodeAt hhead
    refine List.forall_mem_cons.2
      ⟨?_, ih T' htail fun stop hstop seen seen' rest later' e hlater => ?_⟩
    · exact hP stop List.mem_cons_self seen seen₁ (agenda ++ rest) _ e (List.Subset.refl _) T hhead
    · exact hP stop (List.mem_cons_of_mem _ hstop) seen seen' rest later' e
        (List.subset_append_of_subset_right _ hlater)

/-- The tree of a graph nests as deep as the walk has containers. -/
theorem fits_of_run_encodeAt (T : h.Tours (seen.map Prod.fst) ((trail, v) :: rest) stops)
    (hdeep : ∀ trail r, (trail, .node r) ∈ stops → trail.length < n)
    (hrun : (h.encodeAt limit room trail v).run seen = .ok (e, seen')) :
    e.Fits (n - trail.length) := by
  induction room using Nat.strongRecOn generalizing trail v seen seen' rest stops e with
  | ind room ih =>
    have hstop : (trail, v) ∈ stops := T.subset List.mem_cons_self
    rcases encodeAt_cases hrun with ⟨_, rfl, _⟩ | ⟨r, first, rfl, _, rfl, _⟩ |
      ⟨r, room, docs, rfl, hl, rfl, hdocs, rfl⟩
    · exact .leaf
    · obtain ⟨m, hm⟩ : ∃ m, n - trail.length = m + 1 :=
        Nat.exists_eq_add_one.2 (Nat.sub_pos_of_lt (hdeep trail r hstop))
      exact hm ▸ Encoded.fits_token _ _
    · obtain ⟨m, hm⟩ : ∃ m, n - trail.length = m + 1 :=
        Nat.exists_eq_add_one.2 (Nat.sub_pos_of_lt (hdeep trail r hstop))
      obtain ⟨later, rfl, T'⟩ := T.enter_inv (lookup_eq_none_notMem hl)
      rw [mapM_slots] at hdocs
      have hparts : ∀ doc ∈ docs, doc.Fits m := by
        refine T'.forall_mapM hdocs fun stop hin seen seen' rest later' e hlater T'' hrun => ?_
        obtain ⟨slot, _, rfl⟩ := List.mem_map.1 hin
        have hfits := ih room (Nat.lt_succ_self _) T''
          (fun trail r hmem => hdeep trail r (List.mem_cons_of_mem _ (hlater hmem))) hrun
        rwa [List.length_cons, Nat.sub_add_eq, hm] at hfits
      rw [hm]
      exact .node fun slot hslot => hparts _ (View.mem_of_mem_slots_assemble hslot)

/-- The walk of a graph that is encoded comes to containers within the limit, and to those that
it was not in before above it. -/
theorem length_le_of_tours (T : h.Tours [] [([], x)] tour)
    (hbound : ∀ r first, firstVisit? tour r = some first → first.length < limit.toNat) {r : Ref}
    (hstop : (trail, .node r) ∈ tour) : trail.length ≤ limit.toNat := by
  rcases T.origin hstop with hroot | ⟨s, first, _, hfirst, hin⟩
  · obtain ⟨rfl, _⟩ := Prod.mk.inj (List.mem_singleton.1 hroot)
    exact Nat.zero_le _
  · obtain ⟨slot, _, heq⟩ := List.mem_map.1 hin
    obtain ⟨rfl, _⟩ := Prod.mk.inj heq
    exact hbound s first hfirst

/-- What is encoded is the planted tree of a run that goes along the walk. -/
theorem exists_run_of_encoded (T : h.Tours [] [([], x)] tour)
    (henc : h.encoded limit x = .ok (t, k)) :
    ∃ e seen, (h.encodeAt limit limit.toNat [] x).run [] = .ok (e, seen) ∧ plant e h = (t, k) ∧
      (∀ r first, firstVisit? tour r = some first → first.length < limit.toNat) ∧
      ∀ r, seen.lookup r = firstVisit? tour r := by
  unfold encoded encode at henc
  rcases run_encodeAt_root limit T with ⟨hbound, e, seen, hrun, hseen⟩ | ⟨_, hrun⟩
  · rw [hrun] at henc
    exact ⟨e, seen, hrun, Except.ok.inj henc, hbound, hseen⟩
  · rw [hrun] at henc
    cases henc

theorem unfolds_of_run (hplain : ∀ v, h.Occurs x v → v.exempt? = none)
    (hrun : (h.encodeAt limit limit.toNat [] x).run [] = .ok (e, seen)) :
    (plant e h).2.Unfolds (plant e h).1 e ∧ e.Tidy fun v => v.exempt? = none :=
  ⟨unfolds_plant (tidy_of_plain (fun _ => rfl) hplain (fun _ _ hcontainer => hcontainer) hrun) h
      (.refl _),
    tidy_of_plain (fun _ => rfl) hplain (fun v hv _ => hplain v hv) hrun⟩

/-- What is encoded nests as deep as the walk has containers. -/
theorem fits_encoded (hplain : ∀ v, h.Occurs x v → v.exempt? = none)
    (T : h.Tours [] [([], x)] tour) (henc : h.encoded limit x = .ok (t, k))
    (hdeep : ∀ trail r, (trail, .node r) ∈ tour → trail.length < n) : k.Fits n t := by
  obtain ⟨e, seen, hrun, hplant, _⟩ := exists_run_of_encoded T henc
  obtain ⟨hunfolds, hmarkers⟩ := unfolds_of_run hplain hrun
  rw [hplant] at hunfolds
  exact hunfolds.fits hmarkers (fits_of_run_encodeAt T hdeep hrun)

/-- What is encoded has a container, or a token for it, at each stop of the walk, and so is too
deep if such a stop is as many steps below the root as the limit says. -/
theorem toJson_encoded_of_stop (hplain : ∀ v, h.Occurs x v → v.exempt? = none)
    (hkeys : h.DistinctKeys x) (hforms : ∀ v, h.Occurs x v → v.isSerializable = true)
    (T : h.Tours [] [([], x)] tour) (henc : h.encoded limit x = .ok (t, k)) {r : Ref}
    (hstop : (trail, .node r) ∈ tour) (hlength : trail.length = limit.toNat) :
    k.toJson limit t = .error (.depthExceeded limit) := by
  obtain ⟨e, seen, hrun, hplant, _, hseen⟩ := exists_run_of_encoded T henc
  obtain ⟨hunfolds, hmarkers⟩ := unfolds_of_run hplain hrun
  have hnames : ∀ r, h.Reaches x r → (h.view r).names.Nodup := fun r hr => hkeys.names_nodup hr
  obtain ⟨places, E⟩ := encodes_encodeAt h limit limit.toNat [] x [] e seen h hnames
    ⟨by simp, by simp⟩ (by simp [Unvisited]) hrun
  obtain ⟨u, hu, hstands⟩ := E.exists_stands hnames T hseen hstop
  obtain ⟨q, rfl⟩ : ∃ q, u = .node q := by
    cases hstands with
    | leaf hleaf => cases hleaf
    | first _ => exact ⟨_, rfl⟩
    | again _ _ _ => exact ⟨_, rfl⟩
  have hdeep := not_fits_of_resolve hu
  rw [List.length_reverse, hlength] at hdeep
  rw [hplant] at hunfolds hdeep
  rw [toJson_eq_error_iff]
  cases hjson : k.toJsonAt limit limit.toNat t with
  | ok json => exact absurd (fits_of_toJsonAt hjson) hdeep
  | error error =>
    have hleaves : e.Tidy fun v => v.isSerializable = true :=
      tidy_of_plain (fun _ => rfl) hplain (fun v hv _ => hforms v hv) hrun
    rw [hunfolds.error_eq hmarkers hleaves hjson]

/-- A graph without exempt values that is encoded within a limit does not nest too deep to be
written as JSON within any higher limit.  Within the same limit it does only if the walk comes again
to a container as many steps below the root as the limit says, so that its token is one level below
the lowest container; and where names are distinct and JSON has a form for all values, it always
does then. -/
theorem toJson_encoded (hplain : ∀ v, h.Occurs x v → v.exempt? = none)
    (henc : h.encoded limit x = .ok (t, k)) :
    (∀ limit', limit < limit' → k.toJson limit' t ≠ .error (.depthExceeded limit')) ∧
      (∃ tour, h.Tours [] [([], x)] tour) ∧
      ∀ tour, h.Tours [] [([], x)] tour →
        (k.toJson limit t = .error (.depthExceeded limit) →
          ∃ trail r first, (trail, .node r) ∈ tour ∧ trail.length = limit.toNat ∧
            firstVisit? tour r = some first ∧ first.length < limit.toNat) ∧
        (h.DistinctKeys x → (∀ v, h.Occurs x v → v.isSerializable = true) →
          ∀ trail r, (trail, .node r) ∈ tour → trail.length = limit.toNat →
            k.toJson limit t = .error (.depthExceeded limit)) := by
  obtain ⟨tour, T⟩ := exists_tours h [] [([], x)]
  refine ⟨fun limit' hlt => ?_, ⟨tour, T⟩, fun tour T => ⟨fun herror => ?_, ?_⟩⟩
  · obtain ⟨_, _, _, _, hbound, _⟩ := exists_run_of_encoded T henc
    rw [ne_eq, toJson_eq_error_iff]
    exact toJsonAt_of_fits (fits_encoded hplain T henc fun trail r hstop =>
      Nat.lt_of_le_of_lt (length_le_of_tours T hbound hstop) (UInt32.lt_iff_toNat_lt.1 hlt))
  · obtain ⟨_, _, _, _, hbound, _⟩ := exists_run_of_encoded T henc
    rw [toJson_eq_error_iff] at herror
    by_contra hno
    refine toJsonAt_of_fits (fits_encoded hplain T henc fun trail r hstop => ?_) herror
    refine Nat.lt_of_le_of_ne (length_le_of_tours T hbound hstop) fun hlength => hno ?_
    obtain ⟨first, hfirst⟩ := exists_firstVisit? hstop
    exact ⟨trail, r, first, hstop, hlength, hfirst, hbound r first hfirst⟩
  · exact fun hkeys hforms trail r hstop hlength =>
      toJson_encoded_of_stop hplain hkeys hforms T henc hstop hlength

end Encoded

/-- An array that holds itself. -/
def ouroboros : Heap Unit :=
  ⟨#[.array [.node 0]]⟩

/-- The array and its tree: an array with a token. -/
def ouroborosTree : Heap Unit :=
  ⟨#[.array [.node 0], tokenCell [], .array [.node 1]]⟩

/-- Nothing but the array lies in it. -/
theorem occurs_ouroboros {v : Value Unit} (hv : ouroboros.Occurs (.node 0) v) : v = .node 0 := by
  rcases hv with rfl | ⟨r, _, hmem⟩
  · rfl
  · rw [values_view] at hmem
    cases r with
    | zero => exact List.mem_singleton.1 hmem
    | succ r => simp [slots, ouroboros, cell?] at hmem

theorem toJson_encoded_ouroboros :
    (∀ v, ouroboros.Occurs (.node 0) v → v.exempt? = none) ∧
      ouroboros.Tours [] [([], .node 0)] [([], .node 0), ([.index 0], .node 0)] ∧
      ouroboros.encoded 1 (.node 0) = .ok (.node 2, ouroborosTree) ∧
      (∀ limit, 1 < limit → ouroborosTree.toJson limit (.node 2) ≠ .error (.depthExceeded limit)) ∧
      ouroborosTree.toJson 1 (.node 2) = .error (.depthExceeded 1) := by
  have hplain : ∀ v, ouroboros.Occurs (.node 0) v → v.exempt? = none := fun v hv =>
    occurs_ouroboros hv ▸ rfl
  have hinside : ouroboros.inside [] 0 ++ [] = [([.index 0], .node 0)] := rfl
  have T : ouroboros.Tours [] [([], .node 0)] [([], .node 0), ([.index 0], .node 0)] :=
    .enter List.not_mem_nil (hinside ▸ .pass (by simp) .done)
  have henc : ouroboros.encoded 1 (.node 0) = .ok (.node 2, ouroborosTree) := by decide +kernel
  have hkeys : ouroboros.DistinctKeys (.node 0) := by
    intro r entries _ hcell
    cases r <;> simp [ouroboros, cell?] at hcell
  obtain ⟨hhigher, _, hsame⟩ := toJson_encoded hplain henc
  have hforms : ∀ v, ouroboros.Occurs (.node 0) v → v.isSerializable = true := fun v hv =>
    occurs_ouroboros hv ▸ rfl
  exact ⟨hplain, T, henc, hhigher, (hsame _ T).2 hkeys hforms [.index 0] 0 (by simp) rfl⟩

/-- What is encoded within a limit may not be written within it. -/
theorem encoded_not_written :
    ouroboros.encoded 1 (.node 0) = .ok (.node 2, ouroborosTree) ∧
      (∀ v ∈ ouroboros.slots 0, v.exempt? = none) ∧
      ouroborosTree.toJson 1 (.node 2) = .error (.depthExceeded 1) := by
  refine ⟨?_, ?_, ?_⟩
  · decide +kernel
  · decide +kernel
  · rw [toJson_eq_error_iff]
    rfl

end Heap

end TypeDescription
