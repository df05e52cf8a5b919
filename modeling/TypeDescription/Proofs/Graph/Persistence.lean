import TypeDescription.Depth
import TypeDescription.Proofs.Graph.Mirroring

/-!
# Keeping a graph as JSON

A graph is encoded, written as JSON, read back and decoded.  `decode_persisted` is
the main result: what comes back is isomorphic to `Heap.persisted`, with sharing
and cycles, and something comes back exactly if no regular expression lies too
deep.

`decode_persisted_tower` is a graph in which one does.
-/

namespace TypeDescription

variable {X : Type}

namespace Heap

/-! ## Regular expressions -/

section Patterns

variable {h k₀ k : Heap X} {x u : Value X} {room : Nat} {places : List Place} {seen' : Seen}
  {tour : List (Stop X)}

/-- A place outside the graph is that of a regular expression at the root or in a container
of the graph. -/
theorem Persistable.pattern_origin (hx : h.Persistable x)
    (E : h.persisted.Entered k₀ [] [] room (h.persistedRoot x) places k seen' u) {p : Place}
    (hp : p ∈ places) (hnew : h.size ≤ p.source) :
    (p.trail = [] ∧ p.source = h.patternRef h.size 0 ∧ ∃ source flags, x = .regExp source flags) ∨
    ∃ p' ∈ places, p'.source < h.size ∧ ∃ i step source flags,
      (h.view p'.source).slots[i]? = some (step, .regExp source flags) ∧ i < h.width ∧
        p.trail = step :: p'.trail ∧ p.source = h.patternRef p'.source i := by
  obtain ⟨q, trail, target⟩ := p
  rcases E.grown _ hp with ⟨htrail, hroot⟩ | ⟨p', hp', step, htrail, hslot⟩
  · have hback := readBack_root (h := h) (hx.plain x (.inl rfl))
    rw [hroot] at hback
    cases hback with
    | scalar hw => cases hw
    | container => exact absurd (hx.closed.root q rfl) (Nat.not_lt_of_le hnew)
    | pattern => exact .inl ⟨htrail, rfl, _, _, rfl⟩
  · rcases hx.reaches_cases (E.reaches p' hp') with ⟨hr, hlt⟩ | ⟨_, hempty⟩
    · obtain ⟨i, v, hi, hwidth, hv, hback⟩ := hx.mem_slots hr hlt hslot
      cases hback with
      | scalar hw => cases hw
      | container => exact absurd (hx.closed.lt hv) (Nat.not_lt_of_le hnew)
      | pattern => exact .inr ⟨p', hp', hlt, i, step, _, _, hi, hwidth, htrail, rfl⟩
    · rw [hempty] at hslot
      cases hslot

/-- The place of a regular expression in a container lies where the regular expression
stands. -/
theorem Persistable.trail_of_pattern (hx : h.Persistable x)
    (E : h.persisted.Entered k₀ [] [] room (h.persistedRoot x) places k seen' u) {p q : Place}
    (hp : p ∈ places) (hlt : p.source < h.size) {i : Nat} {slot : Step × Value X}
    (hi : (h.view p.source).slots[i]? = some slot) (hq : q ∈ places)
    (hsource : q.source = h.patternRef p.source i) : q.trail = slot.1 :: p.trail := by
  have hwidth := Nat.lt_trans (List.getElem?_eq_some_iff.1 hi).1 length_slots_lt_width
  rcases hx.pattern_origin E hq (hsource ▸ size_le_patternRef) with ⟨_, hroot, _⟩ |
    ⟨p', hp', _, j, step, _, _, hj, hwidth', htrail, hinside⟩
  · have hsize := (patternRef_inj hwidth (Nat.succ_pos _) (hsource.symm.trans hroot)).1
    exact absurd hlt (hsize ▸ Nat.lt_irrefl _)
  · obtain ⟨hsame, rfl⟩ := patternRef_inj hwidth hwidth' (hsource.symm.trans hinside)
    obtain rfl := E.source_inj p hp p' hp' hsame
    rw [hi] at hj
    cases hj
    exact htrail

variable (hx : h.Persistable x) (T : h.Tours [] [([], x)] tour)
  (E : h.persisted.Entered k₀ [] [] room (h.persistedRoot x) places k seen' u)
  (hseen : ∀ r, r < h.size → seen'.lookup r = firstVisit? tour r)

include hx T E hseen

/-- Where a place is outside the graph, the walk of the graph comes to a regular
expression. -/
theorem Persistable.stop_of_place {p : Place} (hp : p ∈ places) (hnew : h.size ≤ p.source) :
    ∃ source flags, (p.trail, .regExp source flags) ∈ tour := by
  rcases hx.pattern_origin E hp hnew with ⟨htrail, _, source, flags, rfl⟩ |
    ⟨p', hp', hlt, i, step, source, flags, hi, _, htrail, _⟩
  · exact ⟨source, flags, T.subset (htrail ▸ List.mem_singleton_self _)⟩
  · have hfirst := (E.firstVisit?_eq_some_iff (hseen _ hlt)).2 ⟨p', hp', rfl, rfl⟩
    refine ⟨source, flags, T.inside_subset List.not_mem_nil hfirst ?_⟩
    rw [htrail]
    exact List.mem_map_of_mem (List.mem_of_getElem? hi)

/-- Where the walk of the graph comes to a regular expression, there is a place. -/
theorem Persistable.place_of_stop {trail : Trail} {source flags : String}
    (hstop : (trail, .regExp source flags) ∈ tour) : ∃ p ∈ places, p.trail = trail := by
  rcases T.origin hstop with hroot | ⟨r, first, _, hfirst, hin⟩
  · obtain ⟨rfl, rfl⟩ := Prod.mk.inj (List.mem_singleton.1 hroot)
    obtain ⟨p, hp, htrail, _⟩ := E.root_place rfl
    exact ⟨p, hp, htrail⟩
  · obtain ⟨slot, hslot, heq⟩ := List.mem_map.1 hin
    obtain ⟨rfl, hv⟩ := Prod.mk.inj heq
    have hlt : r < h.size := by
      by_contra hno
      rw [view_of_size_le (Nat.le_of_not_lt hno)] at hslot
      cases hslot
    obtain ⟨p, hp, rfl, rfl⟩ := (E.firstVisit?_eq_some_iff (hseen r hlt)).1 hfirst
    rcases hx.reaches_cases (E.reaches p hp) with ⟨hr, _⟩ | ⟨hle, _⟩
    · have hnames := hx.keys.names_nodup hr
      obtain ⟨i, hi⟩ := List.getElem?_of_mem hslot
      have hback : (slot.1, Value.node (h.patternRef p.source i)) ∈
          (h.persisted.view p.source).slots := by
        rw [view_persisted hlt hnames, mem_slots_persistView]
        refine ⟨i, slot.2, hi, ?_⟩
        rw [hv]
        cases h.view p.source <;> rfl
      obtain ⟨_, w, _, hst⟩ := (E.walk.images p hp).step?
        (hx.codable.names_nodup (E.reaches p hp)) hback
      cases hst with
      | leaf hleaf => cases hleaf
      | first hmem => exact ⟨_, hmem, rfl⟩
      | @again _ _ first hmem hne _ =>
        -- the empty object was not met anywhere else before
        obtain ⟨q, hq, hvisit⟩ := List.mem_map.1 (E.seen_eq ▸ hmem)
        obtain ⟨hsource, rfl⟩ := Prod.mk.inj hvisit
        exact absurd (hx.trail_of_pattern E hp hlt hi hq hsource) hne
    · exact absurd hlt (Nat.not_lt_of_le hle)

/-- The places are less deep than a bound if the containers and regular expressions of the
graph are. -/
theorem Persistable.shallow_iff {bound : Nat}
    (hshallow : ∀ r first, firstVisit? tour r = some first → first.length < bound) :
    (∀ p ∈ places, p.trail.length < bound) ↔
      ∀ trail source flags, (trail, .regExp source flags) ∈ tour → trail.length < bound := by
  constructor
  · intro hplaces trail source flags hstop
    obtain ⟨p, hp, rfl⟩ := hx.place_of_stop T E hseen hstop
    exact hplaces p hp
  · intro hstops p hp
    by_cases hlt : p.source < h.size
    · exact hshallow p.source _ ((E.firstVisit?_eq_some_iff (hseen _ hlt)).2 ⟨p, hp, rfl, rfl⟩)
    · obtain ⟨source, flags, hstop⟩ := hx.stop_of_place T E hseen hp (Nat.le_of_not_lt hlt)
      exact hstops _ _ _ hstop

end Patterns

/-! ## The way through JSON -/

/-- What is written of an encoded graph is read back as the tree that persists. -/
theorem Persistable.fromJson_eq {h : Heap X} {x : Value X} (hx : h.Persistable x)
    {limit limit' : UInt32} {e : Encoded X} {seen : Seen} {json : Json}
    (hrun : (h.encodeAt limit limit.toNat [] x).run [] = .ok (e, seen))
    (hjson : (plant e h).2.toJson limit' (plant e h).1 = .ok json) :
    fromJson json = e.persist.getD (.leaf .null) := by
  have hscalar : e.Tidy fun v => v.isContainer = false :=
    tidy_of_plain (fun _ => rfl) hx.plain (fun _ _ hcontainer => hcontainer) hrun
  have hplain : e.Tidy fun v => v.exempt? = none :=
    tidy_of_plain (fun _ => rfl) hx.plain (fun w hw _ => hx.plain w hw) hrun
  exact fromJson_toJson (unfolds_plant hscalar h (.refl _)) hplain hjson

/-- A graph that was encoded and written as JSON is read back and decoded to a graph
isomorphic to the graph read back, or it has a regular expression that lies too deep. -/
theorem Persistable.decode_cases {h h₀ k k₀ : Heap X} {limit limit' : UInt32} {x t u : Value X}
    {json : Json} {tour : List (Stop X)} (hx : h.Persistable x) (T : h.Tours [] [([], x)] tour)
    (henc : h.encoded limit x = .ok (t, k)) (hjson : k.toJson limit' t = .ok json)
    (hplant : plant (fromJson json) h₀ = (u, k₀)) :
    (∃ k' f, k₀.decode limit u = (.ok (), k') ∧
      h.persisted.Isomorphism (h.persistedRoot x) k' u f ∧
      ∀ trail source flags, (trail, .regExp source flags) ∈ tour → trail.length < limit.toNat) ∨
    (∃ k', k₀.decode limit u = (.error (.depthExceeded limit), k') ∧
      ∃ trail source flags, (trail, .regExp source flags) ∈ tour ∧
        limit.toNat ≤ trail.length) := by
  unfold encoded encode at henc
  rcases run_encodeAt_root limit T with ⟨hshallow, e, seen, hrun, hseen⟩ | ⟨_, hrun⟩
  · rw [hrun] at henc
    have hplanted : plant e h = (t, k) := Except.ok.inj henc
    obtain ⟨seen', hrun', hold⟩ := hx.run_encodeAt hrun
    rw [← hx.fromJson_eq hrun (by rw [hplanted]; exact hjson)] at hrun'
    obtain ⟨places, E⟩ := encodes_encodeAt h.persisted limit (limit.toNat + 1) []
      (h.persistedRoot x) [] (fromJson json) seen' h₀ (fun r hr => hx.codable.names_nodup hr)
      ⟨by simp, by simp⟩ (by simp [Unvisited]) hrun'
    rw [hplant] at E
    have hiff := hx.shallow_iff T E (fun r hr => (hold r hr).trans (hseen r)) hshallow
    rcases E.decode_cases hx.codable limit with ⟨k', f, hdec, iso, hplaces⟩ |
      ⟨k', hdec, p, hp, hdeep⟩
    · exact .inl ⟨k', f, hdec, iso, hiff.1 hplaces⟩
    · refine .inr ⟨k', hdec, ?_⟩
      by_contra hno
      refine absurd (hiff.2 (fun trail source flags hstop => ?_) p hp) (Nat.not_lt_of_le hdeep)
      exact Nat.lt_of_not_le fun hle => hno ⟨trail, source, flags, hstop, hle⟩
  · rw [hrun] at henc
    cases henc

/-- A graph that was encoded and written as JSON is read back and decoded exactly if its
depth-first walk comes to every regular expression fewer than `limit` steps below the
root, for the empty object that stands for it is walked.  The result is isomorphic to the
graph read back, and two walks from its root end at one container exactly if they do
there. -/
theorem decode_persisted {h h₀ k k₀ : Heap X} {limit limit' : UInt32} {x t u : Value X}
    {json : Json} {tour : List (Stop X)} (hx : h.Persistable x) (T : h.Tours [] [([], x)] tour)
    (henc : h.encoded limit x = .ok (t, k)) (hjson : k.toJson limit' t = .ok json)
    (hplant : plant (fromJson json) h₀ = (u, k₀)) :
    ((∃ k', k₀.decode limit u = (.ok (), k')) ↔
      ∀ trail source flags, (trail, .regExp source flags) ∈ tour → trail.length < limit.toNat) ∧
    ∀ k', k₀.decode limit u = (.ok (), k') →
      ∃ f, h.persisted.Isomorphism (h.persistedRoot x) k' u f ∧
        ∀ a b, k'.Meets u a b ↔ h.persisted.Meets (h.persistedRoot x) a b := by
  rcases hx.decode_cases T henc hjson hplant with ⟨k', f, hdec, iso, hstops⟩ |
    ⟨k', hdec, trail, source, flags, hstop, hdeep⟩
  · rw [hdec]
    refine ⟨⟨fun _ => hstops, fun _ => ⟨k', rfl⟩⟩, fun k'' heq => ?_⟩
    cases heq
    exact ⟨f, iso, iso.meets_iff⟩
  · rw [hdec]
    refine ⟨⟨fun hok => ?_, fun hstops => ?_⟩, fun k'' heq => by cases heq⟩
    · obtain ⟨k'', hok⟩ := hok
      cases hok
    · exact absurd (hstops trail source flags hstop) (Nat.not_lt_of_le hdeep)

/-- An array that holds one map twice and undefined; the map holds the array, a regular
expression and undefined. -/
def keepsake : Heap Unit :=
  ⟨#[.array [.node 1, .undefined, .node 1],
    .map [(.string "a", .node 0), (.bool true, .undefined), (.string "b", .regExp "x" "")]]⟩

theorem persistable_keepsake : keepsake.Persistable (.node 0) := by
  have hzero : keepsake.view 0 = .list [.node 1, .undefined, .node 1] := rfl
  have hone : keepsake.view 1 =
      .named [("a", .node 0), ("true", .undefined), ("b", .regExp "x" "")] := rfl
  have hbeyond : ∀ r, keepsake.view (r + 2) = .list [] := fun r =>
    view_of_size_le (Nat.le_add_left 2 r)
  refine ⟨⟨fun r hr => ?_, fun r v hv s hs => ?_⟩, fun r entries _ hcell => ?_,
    fun v hv => ?_, fun r fields text _ hview hmem => ?_⟩
  · cases hr
    decide
  · rw [← values_view] at hv
    rcases r with _ | _ | r
    · rw [hzero] at hv
      obtain rfl | rfl | rfl : v = .node 1 ∨ v = .undefined ∨ v = .node 1 := by
        simpa [View.values] using hv
      all_goals cases hs <;> decide
    · rw [hone] at hv
      obtain rfl | rfl | rfl : v = .node 0 ∨ v = .undefined ∨ v = .regExp "x" "" := by
        simpa [View.values] using hv
      all_goals cases hs <;> decide
    · rw [hbeyond] at hv
      cases hv
  · rcases r with _ | _ | r <;> simp [keepsake, cell?] at hcell
    subst hcell
    decide +kernel
  · rcases hv with rfl | ⟨r, _, hmem⟩
    · rfl
    · rcases r with _ | _ | r
      · rw [hzero] at hmem
        revert v
        decide
      · rw [hone] at hmem
        revert v
        decide
      · rw [hbeyond] at hmem
        cases hmem
  · rcases r with _ | _ | r
    · rw [hzero] at hview
      cases hview
    · rw [hone] at hview
      cases hview
      simp [refKey] at hmem
    · rw [hbeyond] at hview
      cases hview

theorem decode_persisted_keepsake :
    keepsake.Persistable (.node 0) ∧ ∃ tour t k json k' f,
      keepsake.Tours [] [([], .node 0)] tour ∧
      keepsake.encoded 3 (.node 0) = .ok (t, k) ∧ k.toJson 3 t = .ok json ∧
      (∀ trail source flags, (trail, .regExp source flags) ∈ tour → trail.length < 3) ∧
      (plant (fromJson json) k).2.decode 3 (plant (fromJson json) k).1 = (.ok (), k') ∧
      keepsake.persisted.Isomorphism (keepsake.persistedRoot (.node 0)) k'
        (plant (fromJson json) k).1 f := by
  have hx := persistable_keepsake
  obtain ⟨tour, T⟩ := exists_tours keepsake [] [([], .node 0)]
  have hok : ((keepsake.encoded 3 (.node 0)).bind fun result =>
      (result.2.toJson 3 result.1).bind fun json =>
        ((plant (fromJson json) result.2).2.decode 3 (plant (fromJson json) result.2).1).1).isOk =
      true := by
    decide +kernel
  cases henc : keepsake.encoded 3 (.node 0) with
  | error e => rw [henc] at hok; cases hok
  | ok result =>
    rw [henc, Except.bind] at hok
    cases hjson : result.2.toJson 3 result.1 with
    | error e => rw [hjson] at hok; cases hok
    | ok json =>
      rw [hjson, Except.bind] at hok
      have hresult := decode_persisted hx T henc hjson (Prod.mk.eta : _ = plant _ result.2).symm
      generalize hdec : (plant (fromJson json) result.2).2.decode 3
        (plant (fromJson json) result.2).1 = outcome at hok hresult
      obtain ⟨outcome, k'⟩ := outcome
      cases outcome with
      | error e => cases hok
      | ok =>
        obtain ⟨f, iso, _⟩ := hresult.2 k' rfl
        exact ⟨hx, tour, result.1, result.2, json, k', f, T, rfl, hjson,
          hresult.1.1 ⟨k', rfl⟩, hdec, iso⟩

/-! ## Too deep a regular expression -/

/-- What stands on the first levels of a tower: a regular expression on none, else the
array of the last of them. -/
def top : Nat → Value Unit
  | 0 => .regExp "a" ""
  | n + 1 => .node n

/-- Arrays around a regular expression, each in the next. -/
def tower (height : Nat) : Heap Unit :=
  ofViews height fun r => .list [top r]

/-- The tree of the first levels of a tower. -/
def story : Nat → Encoded Unit
  | 0 => .leaf (.regExp "a" "")
  | n + 1 => .array [story n]

section Tower

variable {height n : Nat}

theorem view_tower {r : Ref} (hr : r < height) : (tower height).view r = .list [top r] :=
  view_ofViews hr List.nodup_nil

theorem run_encodeAt_tower (limit : UInt32) {room : Nat} (trail : Trail) {seen : Seen}
    (hheight : n ≤ height) (hroom : n ≤ room) (hseen : ∀ r, r < n → seen.lookup r = none) :
    ∃ seen', ((tower height).encodeAt limit room trail (top n)).run seen =
      .ok (story n, seen') := by
  induction n generalizing room trail seen with
  | zero =>
    rw [top, encodeAt_leaf rfl]
    exact ⟨_, rfl⟩
  | succ n ih =>
    obtain ⟨room, rfl⟩ := Nat.exists_eq_succ_of_ne_zero (Nat.ne_of_gt (Nat.zero_lt_of_lt hroom))
    have hbelow : ∀ r, r < n → ((n, trail) :: seen).lookup r = none := by
      intro r hr
      rw [lookup_cons_of_ne (Nat.ne_of_lt hr)]
      exact hseen r (Nat.lt_succ_of_lt hr)
    obtain ⟨seen', hrun⟩ := ih (Step.ofIndex 0 :: trail) (Nat.le_of_succ_le hheight)
      (Nat.le_of_succ_le_succ hroom) hbelow
    refine ⟨seen', ?_⟩
    rw [top, run_encodeAt_first (hseen n (Nat.lt_succ_self n))]
    simp only [view_tower hheight, encodeView_eq, run_bind_eq_ok]
    refine ⟨[story n], seen', ?_, rfl⟩
    simp only [View.slots, List.zipIdx_singleton, List.map_cons, List.map_nil, List.mapM_cons,
      List.mapM_nil, run_bind_eq_ok]
    exact ⟨story n, seen', hrun, [], seen', rfl, rfl⟩

theorem toJsonAt_story {k : Heap Unit} (limit : UInt32) {room : Nat} {v : Value Unit}
    (hu : k.Unfolds v (story n)) (hroom : n ≤ room) :
    ∃ json, k.toJsonAt limit room v = .ok (some json) := by
  induction n generalizing room v with
  | zero =>
    cases hu with
    | leaf _ =>
      rw [toJsonAt.eq_def]
      exact ⟨_, rfl⟩
  | succ n ih =>
    cases hu with
    | @array r items _ hcell hdocs =>
      obtain ⟨room, rfl⟩ := Nat.exists_eq_succ_of_ne_zero (Nat.ne_of_gt (Nat.zero_lt_of_lt hroom))
      cases hdocs with
      | @cons w _ _ _ hw hnil =>
        cases hnil
        obtain ⟨json, hjson⟩ := ih hw (Nat.le_of_succ_le_succ hroom)
        refine ⟨.array [json], ?_⟩
        rw [toJsonAt.eq_def]
        simp [Value.unwrap, view, hcell, viewCell, viewToJson, hjson]

theorem tidy_story (n : Nat) : (story n).Tidy fun v => v.isContainer = false := by
  induction n with
  | zero => exact .leaf rfl
  | succ n ih => exact .array fun doc hdoc => List.mem_singleton.1 hdoc ▸ ih

/-- The walk of a tower comes down to the regular expression. -/
theorem exists_pattern_stop {met : List Ref} {trail : Trail} {rest stops : List (Stop Unit)}
    (hheight : n ≤ height) (hmet : ∀ r, r < n → r ∉ met)
    (T : (tower height).Tours met ((trail, top n) :: rest) stops) :
    ∃ trail', (trail', .regExp "a" "") ∈ stops ∧ trail'.length = trail.length + n := by
  induction n generalizing met trail rest stops with
  | zero => exact ⟨trail, T.subset List.mem_cons_self, rfl⟩
  | succ n ih =>
    obtain ⟨later, rfl, T'⟩ := T.enter_inv (hmet n (Nat.lt_succ_self n))
    rw [inside, view_tower hheight] at T'
    have hmet' : ∀ r, r < n → r ∉ n :: met := by
      intro r hr
      rw [List.mem_cons, not_or]
      exact ⟨Nat.ne_of_lt hr, hmet r (Nat.lt_succ_of_lt hr)⟩
    obtain ⟨trail', hstop, hlen⟩ := ih (Nat.le_of_succ_le hheight) hmet' T'
    refine ⟨trail', List.mem_cons_of_mem _ hstop, ?_⟩
    rw [hlen, List.length_cons, Nat.add_right_comm, Nat.add_assoc]

theorem exists_top_of_mem {r : Ref} {v : Value Unit} (hv : v ∈ ((tower height).view r).values) :
    ∃ m, m ≤ height ∧ v = top m := by
  by_cases hr : r < height
  · rw [view_tower hr] at hv
    exact ⟨r, Nat.le_of_lt hr, List.mem_singleton.1 hv⟩
  · rw [view_of_size_le (by rw [tower, size_ofViews]; exact Nat.le_of_not_lt hr)] at hv
    cases hv

theorem persistable_tower (hheight : n ≤ height) : (tower height).Persistable (top n) := by
  have hclosed : ∀ m, m ≤ height → ∀ r, (top m).unwrap = .node r → r < (tower height).size := by
    intro m hm r hr
    rw [tower, size_ofViews]
    cases m with
    | zero => cases hr
    | succ m =>
      cases hr
      exact hm
  have hplain : ∀ m, (top m).exempt? = none := by
    intro m
    cases m <;> rfl
  refine ⟨⟨hclosed n hheight, fun r v hv => ?_⟩, fun r entries _ hcell => ?_, fun v hv => ?_,
    fun r fields text _ hfields hmem => ?_⟩
  · obtain ⟨m, hm, rfl⟩ := exists_top_of_mem (values_view _ r ▸ hv)
    exact hclosed m hm
  · exact absurd hcell cell?_ofViews_ne_map
  · rcases hv with rfl | ⟨r, _, hv⟩
    · exact hplain n
    · obtain ⟨m, _, rfl⟩ := exists_top_of_mem hv
      exact hplain m
  · -- no string lies in a tower
    have hin : ∀ w, (refKey, w) ∈ fields → ∃ m, w = top m := by
      intro w hw
      have hmem : w ∈ ((tower height).view r).values := by
        rw [hfields]
        exact List.mem_map_of_mem (f := Prod.snd) hw
      obtain ⟨m, _, hm⟩ := exists_top_of_mem hmem
      exact ⟨m, hm⟩
    rcases hmem with hmem | hmem <;> obtain ⟨m, hm⟩ := hin _ hmem <;> cases m <;> cases hm

/-- A regular expression in as many arrays as a limit allows is encoded and written, but
what is read back is too deep to be decoded. -/
theorem decode_tower (limit : UInt32) :
    ∃ t k json k', (tower limit.toNat).encoded limit (top limit.toNat) = .ok (t, k) ∧
      k.toJson limit t = .ok json ∧
      (plant (fromJson json) k).2.decode limit (plant (fromJson json) k).1 =
        (.error (.depthExceeded limit), k') := by
  obtain ⟨seen, hrun⟩ := run_encodeAt_tower limit [] (Nat.le_refl limit.toNat)
    (Nat.le_refl _) fun r _ => List.lookup_nil
  have hunfolds := unfolds_plant (tidy_story limit.toNat) (tower limit.toNat) (.refl _)
  have henc : (tower limit.toNat).encoded limit (top limit.toNat) =
      .ok (plant (story limit.toNat) (tower limit.toNat)) := by
    rw [encoded, encode, hrun]
    rfl
  generalize plant (story limit.toNat) (tower limit.toNat) = result at henc hunfolds
  obtain ⟨t, k⟩ := result
  obtain ⟨json, hwritten⟩ := toJsonAt_story limit hunfolds (Nat.le_refl _)
  have hjson : k.toJson limit t = .ok json := by
    rw [toJson, hwritten]
    rfl
  obtain ⟨tour, T⟩ := exists_tours (tower limit.toNat) [] [([], top limit.toNat)]
  obtain ⟨trail, hstop, hlen⟩ := exists_pattern_stop (Nat.le_refl _) (fun _ _ => List.not_mem_nil) T
  have hplant := (Prod.mk.eta : _ = plant (fromJson json) k).symm
  rcases (persistable_tower (Nat.le_refl _)).decode_cases T henc hjson hplant with
    ⟨_, _, _, _, hstops⟩ | ⟨k', hdec, _⟩
  · have hdeep := hstops trail _ _ hstop
    rw [hlen] at hdeep
    exact absurd hdeep (Nat.not_lt_of_le (Nat.le_add_left _ _))
  · exact ⟨t, k, json, k', henc, hjson, hdec⟩

end Tower

/-- With the limit of the codec: a regular expression in 1024 arrays. -/
theorem decode_persisted_tower :
    (tower 1024).Persistable (.node 1023) ∧ ∃ t k json k',
      (tower 1024).encoded DepthProfile.codec.limit (.node 1023) = .ok (t, k) ∧
      k.toJson DepthProfile.codec.limit t = .ok json ∧
      (plant (fromJson json) k).2.decode DepthProfile.codec.limit (plant (fromJson json) k).1 =
        (.error (.depthExceeded DepthProfile.codec.limit), k') :=
  ⟨persistable_tower (Nat.le_refl 1024), decode_tower DepthProfile.codec.limit⟩

end Heap

end TypeDescription
