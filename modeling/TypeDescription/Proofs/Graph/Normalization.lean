import TypeDescription.Graph.Normalize
import TypeDescription.Proofs.Graph.Encoding
import TypeDescription.Proofs.Graph.Rewriting

/-!
# Encoding and normalizing

`encode_normalize` says that the encoder reads maps and sets as if they had been
normalized first, as long as no map has two keys of one name.
`encode_fork_ne_encode_normalize` is a graph with such a map: there the encoder
records the place of an entry that a later one replaces.

Two facts make it up.  The copier meets containers as the encoder does
(`copyAt_alongside`), so either fails if the other does, and the copies are the
graph with its containers renamed and the last field of each name
(`Copied.view_copyOf`).  A renamed graph is encoded as the same tree
(`encodeAt_relabel`).
-/

namespace TypeDescription

variable {X : Type}

/-- A value with its container renamed; exempt values are left alone. -/
def Value.relabel (f : Ref → Ref) : Value X → Value X
  | .node r => .node (f r)
  | value => value

theorem Value.relabel_of_leaf {v : Value X} (f : Ref → Ref) (hv : v.isContainer = false) :
    v.relabel f = v := by
  cases v <;> first | rfl | cases hv

/-- The containers seen, renamed. -/
def relabelSeen (f : Ref → Ref) (seen : Seen) : Seen :=
  seen.map fun visit => (f visit.1, visit.2)

theorem lookup_relabelSeen {f : Ref → Ref} (hf : Function.Injective f) (seen : Seen) (r : Ref) :
    (relabelSeen f seen).lookup (f r) = seen.lookup r := by
  induction seen with
  | nil => rfl
  | cons visit seen ih =>
    obtain ⟨s, trail⟩ := visit
    have hbeq : (f r == f s) = (r == s) := by
      rw [Bool.eq_iff_iff, beq_iff_eq, beq_iff_eq, hf.eq_iff]
    simp only [relabelSeen, List.map_cons, List.lookup_cons, hbeq] at ih ⊢
    rw [ih]

namespace Heap

/-! ## Renamed containers are encoded alike -/

section Relabel

variable {h k : Heap X} {f : Ref → Ref}

/-- What encoding a renamed graph gives: the same tree, and the same containers seen,
renamed. -/
def relabelResult {α : Type} (f : Ref → Ref) (outcome : Except CodecError (α × Seen)) :
    Except CodecError (α × Seen) :=
  outcome.map fun result => (result.1, relabelSeen f result.2)

theorem relabelResult_bind {α β : Type} {m n : Encoder α} {g g' : α → Encoder β} {seen : Seen}
    (hm : n.run (relabelSeen f seen) = relabelResult f (m.run seen))
    (hg : ∀ a seen, (g' a).run (relabelSeen f seen) = relabelResult f ((g a).run seen)) :
    (n >>= g').run (relabelSeen f seen) = relabelResult f ((m >>= g).run seen) := by
  rw [StateT.run_bind, StateT.run_bind, hm]
  cases m.run seen with
  | error e => rfl
  | ok result => exact hg result.1 result.2

theorem relabelResult_mapM {α β : Type} {l : List α} {g g' : α → Encoder β}
    (hg : ∀ a ∈ l, ∀ seen, (g' a).run (relabelSeen f seen) = relabelResult f ((g a).run seen))
    (seen : Seen) :
    (l.mapM g').run (relabelSeen f seen) = relabelResult f ((l.mapM g).run seen) := by
  induction l generalizing seen with
  | nil => rfl
  | cons a l ih =>
    rw [List.mapM_cons, List.mapM_cons]
    refine relabelResult_bind (hg a List.mem_cons_self seen) fun b seen => ?_
    refine relabelResult_bind (ih (fun a ha => hg a (List.mem_cons_of_mem _ ha)) seen) ?_
    exact fun bs seen => rfl

/-- A graph with its containers renamed is encoded as the same tree. -/
theorem encodeAt_relabel (hf : Function.Injective f) (limit : UInt32) (room : Nat) (trail : Trail)
    (v : Value X)
    (hview : ∀ r, h.Reaches v r → k.view (f r) = (h.view r).mapValues (.relabel f)) (seen : Seen) :
    (k.encodeAt limit room trail (v.relabel f)).run (relabelSeen f seen) =
      relabelResult f ((h.encodeAt limit room trail v).run seen) := by
  induction room using Nat.strongRecOn generalizing trail v seen with
  | ind room ih =>
    cases hv : v.isContainer with
    | false =>
      rw [Value.relabel_of_leaf f hv, encodeAt_leaf hv, encodeAt_leaf hv]
      rfl
    | true =>
      obtain ⟨r, rfl⟩ := Value.exists_eq_node hv
      have hlookup := lookup_relabelSeen hf seen r
      rw [Value.relabel]
      cases hl : seen.lookup r with
      | some first =>
        rw [run_encodeAt_seen (hlookup.trans hl), run_encodeAt_seen hl]
        rfl
      | none =>
        rw [run_encodeAt_first (hlookup.trans hl), run_encodeAt_first hl]
        cases room with
        | zero => rfl
        | succ room =>
          have hseen : (f r, trail) :: relabelSeen f seen =
              relabelSeen f ((r, trail) :: seen) := rfl
          simp only [encodeView_eq, hview r (.root rfl), View.slots_mapValues, List.mapM_map,
            View.assemble_mapValues, hseen]
          refine relabelResult_bind (relabelResult_mapM (fun slot hslot seen => ?_) _)
            fun _ _ => rfl
          refine ih room (Nat.lt_succ_self _) _ _ (fun s hs => hview s ?_) seen
          exact .of_value (.root rfl) (View.mem_values_of_mem_slots hslot) hs

end Relabel

/-! ## Copies -/

/-- A container is copied by copying its values in order. -/
theorem copyView_eq (child : Value X → Copier X (Value X)) (view : View X) :
    copyView child view = do
      let items ← view.slots.mapM fun slot => child slot.2
      return view.fill items := by
  cases view with
  | list items =>
    have hmap : (View.list items).slots.mapM (fun slot => child slot.2) =
        ((View.list items).slots.map Prod.snd).mapM child := by rw [List.mapM_map]; rfl
    rw [hmap, View.slots_snd]
    rfl
  | named fields =>
    have hkeyed := mapM_keyed Prod.fst (fun field : String × Value X => child field.2) fields
    simp only [copyView, View.slots, View.fill, List.mapM_map, Function.comp_def,
      bind_pure_comp] at hkeyed ⊢
    rw [hkeyed, Functor.map_map]

/-- A value that is no container is its own copy. -/
theorem copyAt_leaf {h : Heap X} {limit : UInt32} {room : Nat} {v : Value X}
    (hv : v.isContainer = false) : h.copyAt limit room v = pure v := by
  cases v <;> first | (cases room <;> rfl) | simp [Value.isContainer] at hv

/-- A container met before has its copy. -/
theorem run_copyAt_done {h : Heap X} {limit : UInt32} {room : Nat} {r q : Ref} {s : Copying X}
    (hl : s.done.lookup r = some q) :
    (h.copyAt limit room (.node r)).run s = .ok (.node q, s) := by
  cases room <;> (simp [copyAt, hl]; rfl)

/-- The state in which the values of a container are copied. -/
def beginCopy (s : Copying X) (r : Ref) (view : View X) : Copying X :=
  ⟨(s.heap.allocate (blankView view)).2, (r, s.heap.size) :: s.done⟩

/-- A container met first gets a new container, which is filled with the copies of its
values. -/
theorem run_copyAt_first {h : Heap X} {limit : UInt32} {room : Nat} {r : Ref} {s : Copying X}
    (hl : s.done.lookup r = none) :
    (h.copyAt limit room (.node r)).run s =
      match room with
      | 0 => .error (.depthExceeded limit)
      | room + 1 =>
          (((h.view r).slots.mapM fun slot => h.copyAt limit room slot.2).run
            (beginCopy s r (h.view r))).map fun result =>
              (.node s.heap.size, { result.2 with
                heap := result.2.heap.write s.heap.size ((h.view r).fill result.1) }) := by
  cases room with
  | zero =>
    simp [copyAt, hl]
    rfl
  | succ room =>
    simp [copyAt, hl, copyView_eq]
    rfl

/-- The copy of a value: a scalar itself, a container its new container. -/
inductive Copies (done : List (Ref × Ref)) : Value X → Value X → Prop
  | leaf {v : Value X} : v.isContainer = false → Copies done v v
  | node {r q : Ref} : (r, q) ∈ done → Copies done (.node r) (.node q)

theorem Copies.mono {done done' : List (Ref × Ref)} {v w : Value X} (hdone : done ⊆ done')
    (h : Copies done v w) : Copies done' v w := by
  cases h with
  | leaf hv => exact .leaf hv
  | node hmem => exact .node (hdone hmem)

/-- What a copying did: the copies it added, in a heap that grew, each with the copies of
the values in the container. -/
structure Copied (h : Heap X) (s : Copying X) (added : List (Ref × Ref)) (s' : Copying X) :
    Prop where
  done_eq : s'.done = added ++ s.done
  sources_nodup : (s.done.map Prod.fst).Nodup → (s'.done.map Prod.fst).Nodup
  within : s.heap.Within s'.heap
  span : ∀ pair ∈ added, s.heap.size ≤ pair.2 ∧ pair.2 < s'.heap.size
  copies_nodup : (added.map Prod.snd).Nodup
  filled : ∀ pair ∈ added, s'.heap.Fills pair.2 (h.view pair.1) fun _ slot u =>
    Copies s'.done slot.2 u

theorem Copied.nil (h : Heap X) (s : Copying X) : h.Copied s [] s where
  done_eq := rfl
  sources_nodup := id
  within := .refl _
  span := by simp
  copies_nodup := by simp
  filled := by simp

theorem Copied.trans {h : Heap X} {s s₁ s₂ : Copying X} {added₁ added₂ : List (Ref × Ref)}
    (c₁ : h.Copied s added₁ s₁) (c₂ : h.Copied s₁ added₂ s₂) :
    h.Copied s (added₂ ++ added₁) s₂ where
  done_eq := by rw [c₂.done_eq, c₁.done_eq, List.append_assoc]
  sources_nodup := c₂.sources_nodup ∘ c₁.sources_nodup
  within := c₁.within.trans c₂.within
  span pair hpair := by
    rcases List.mem_append.1 hpair with hpair | hpair
    · exact ⟨Nat.le_trans c₁.within.size_le (c₂.span pair hpair).1, (c₂.span pair hpair).2⟩
    · exact ⟨(c₁.span pair hpair).1, Nat.lt_of_lt_of_le (c₁.span pair hpair).2 c₂.within.size_le⟩
  copies_nodup := by
    rw [List.map_append, List.nodup_append]
    refine ⟨c₂.copies_nodup, c₁.copies_nodup, ?_⟩
    rintro a ha b hb rfl
    obtain ⟨pair₂, hpair₂, rfl⟩ := List.mem_map.1 ha
    obtain ⟨pair₁, hpair₁, heq⟩ := List.mem_map.1 hb
    exact Nat.not_lt_of_le (c₂.span pair₂ hpair₂).1 (heq ▸ (c₁.span pair₁ hpair₁).2)
  filled pair hpair := by
    rcases List.mem_append.1 hpair with hpair | hpair
    · exact c₂.filled pair hpair
    · refine (c₁.filled pair hpair).mono (fun _ hc => c₂.within.cell? hc)
        fun _ _ _ _ hu => hu.mono ?_
      rw [c₂.done_eq]
      exact List.subset_append_right _ _

/-- A copying goes as an encoding does: both fail, or both succeed, having met the same
containers. -/
inductive Alongside {α β : Type} (h : Heap X) (s : Copying X)
    (made : List (Ref × Ref) → β → Prop) :
    Except CodecError (α × Seen) → Except CodecError (β × Copying X) → Prop
  | ok {a : α} {b : β} {seen : Seen} {added : List (Ref × Ref)} {s' : Copying X} :
      s'.done.map Prod.fst = seen.map Prod.fst → h.Copied s added s' → made s'.done b →
        Alongside h s made (.ok (a, seen)) (.ok (b, s'))
  | error {e : CodecError} : Alongside h s made (.error e) (.error e)

/-- The slots of a container are copied as they are encoded. -/
theorem Alongside.mapM {α : Type} {h : Heap X} {slots : List (Step × Value X)}
    {g : Step × Value X → Encoder α} {c : Step × Value X → Copier X (Value X)}
    (hslot : ∀ slot ∈ slots, ∀ (seen : Seen) (s : Copying X),
      s.done.map Prod.fst = seen.map Prod.fst →
        h.Alongside s (fun done => Copies done slot.2) ((g slot).run seen) ((c slot).run s))
    (seen : Seen) (s : Copying X) (hkeys : s.done.map Prod.fst = seen.map Prod.fst) :
    h.Alongside s (fun done => List.Forall₂ (fun slot => Copies done slot.2) slots)
      ((slots.mapM g).run seen) ((slots.mapM c).run s) := by
  induction slots generalizing seen s with
  | nil => exact .ok hkeys (.nil h s) .nil
  | cons slot slots ih =>
    have hhead := hslot slot List.mem_cons_self seen s hkeys
    rw [List.mapM_cons, List.mapM_cons, StateT.run_bind, StateT.run_bind]
    generalize (g slot).run seen = outcome at hhead
    generalize (c slot).run s = outcome' at hhead
    cases hhead with
    | error => exact .error
    | @ok a w seen₁ added₁ s₁ hkeys₁ c₁ hw =>
      have htail := ih (fun slot hmem => hslot slot (List.mem_cons_of_mem _ hmem)) seen₁ s₁ hkeys₁
      show h.Alongside s _ ((slots.mapM g >>= fun as => pure (a :: as)).run seen₁)
        ((slots.mapM c >>= fun ws => pure (w :: ws)).run s₁)
      rw [StateT.run_bind, StateT.run_bind]
      generalize (slots.mapM g).run seen₁ = outcome at htail
      generalize (slots.mapM c).run s₁ = outcome' at htail
      cases htail with
      | error => exact .error
      | @ok as ws seen₂ added₂ s₂ hkeys₂ c₂ hws =>
        refine .ok hkeys₂ (c₁.trans c₂) (.cons (hw.mono ?_) hws)
        rw [c₂.done_eq]
        exact List.subset_append_right _ _

/-- A container whose values were copied is filled with the copies. -/
theorem Copied.enter {h : Heap X} {s s' : Copying X} {r : Ref} {added : List (Ref × Ref)}
    {ws : List (Value X)} (hfresh : r ∉ s.done.map Prod.fst)
    (c : h.Copied (beginCopy s r (h.view r)) added s')
    (hws : List.Forall₂ (fun slot => Copies s'.done slot.2) (h.view r).slots ws) :
    h.Copied s (added ++ [(r, s.heap.size)])
      { s' with heap := s'.heap.write s.heap.size ((h.view r).fill ws) } := by
  have hsize : (beginCopy s r (h.view r)).heap.size = s.heap.size + 1 := size_allocate _ _
  have hlt : s.heap.size < s'.heap.size := by
    have := c.within.size_le
    omega
  have hle : ∀ pair ∈ added, s.heap.size + 1 ≤ pair.2 := fun pair hpair =>
    hsize ▸ (c.span pair hpair).1
  have hne : ∀ pair ∈ added, pair.2 ≠ s.heap.size := fun pair hpair =>
    Nat.ne_of_gt (hle pair hpair)
  refine ⟨?_, fun hs => c.sources_nodup (hs.cons hfresh), ⟨?_, fun q hq => ?_⟩,
    fun pair hpair => ?_, ?_, fun pair hpair => ?_⟩
  · rw [c.done_eq, beginCopy, List.append_assoc]
    rfl
  · rw [size_write]
    omega
  · rw [cell?_write_of_ne _ (Nat.ne_of_lt hq), c.within.cell?_eq q (by omega)]
    exact cell?_allocate_of_lt _ hq
  · rw [size_write]
    rcases List.mem_append.1 hpair with hpair | hpair
    · exact ⟨Nat.le_of_succ_le (hle pair hpair), (c.span pair hpair).2⟩
    · obtain rfl := List.mem_singleton.1 hpair
      exact ⟨Nat.le_refl _, hlt⟩
  · rw [List.map_append, List.nodup_append]
    refine ⟨c.copies_nodup, by simp, ?_⟩
    rintro a ha b hb rfl
    obtain ⟨pair, hpair, rfl⟩ := List.mem_map.1 ha
    exact hne pair hpair (by simpa using hb)
  · rcases List.mem_append.1 hpair with hpair | hpair
    · exact (c.filled pair hpair).mono
        (fun cell hcell => (cell?_write_of_ne _ (hne pair hpair)).trans hcell) fun _ _ _ _ hu => hu
    · obtain rfl := List.mem_singleton.1 hpair
      exact .of_forall₂ (cell?_write_self _ hlt) hws

/-- A graph is copied as it is encoded. -/
theorem copyAt_alongside (h : Heap X) (limit : UInt32) (room : Nat) (trail : Trail) (v : Value X)
    (seen : Seen) (s : Copying X) (hkeys : s.done.map Prod.fst = seen.map Prod.fst) :
    h.Alongside s (fun done => Copies done v) ((h.encodeAt limit room trail v).run seen)
      ((h.copyAt limit room v).run s) := by
  induction room using Nat.strongRecOn generalizing trail v seen s with
  | ind room ih =>
    cases hv : v.isContainer with
    | false =>
      rw [encodeAt_leaf hv, copyAt_leaf hv]
      exact .ok hkeys (.nil h s) (.leaf hv)
    | true =>
      obtain ⟨r, rfl⟩ := Value.exists_eq_node hv
      cases hl : seen.lookup r with
      | some first =>
        obtain ⟨q, hq⟩ : ∃ q, s.done.lookup r = some q := by
          rw [← Option.isSome_iff_exists, lookup_isSome_iff, hkeys, ← lookup_isSome_iff, hl]
          rfl
        rw [run_encodeAt_seen hl, run_copyAt_done hq]
        exact .ok hkeys (.nil h s) (.node (lookup_eq_some_mem hq))
      | none =>
        have hfresh : r ∉ s.done.map Prod.fst := hkeys ▸ lookup_eq_none_notMem hl
        have hq : s.done.lookup r = none := by
          rwa [← Option.not_isSome_iff_eq_none, lookup_isSome_iff]
        rw [run_encodeAt_first hl, run_copyAt_first hq]
        cases room with
        | zero => exact .error
        | succ room =>
          simp only [encodeView_eq, StateT.run_bind]
          have hvalues := Alongside.mapM (fun slot (_ : slot ∈ (h.view r).slots) =>
            ih room (Nat.lt_succ_self _) (slot.1 :: trail) slot.2) ((r, trail) :: seen)
            (beginCopy s r (h.view r)) (by simp [beginCopy, hkeys])
          generalize ((h.view r).slots.mapM fun slot =>
            h.encodeAt limit room (slot.1 :: trail) slot.2).run ((r, trail) :: seen) =
              outcome at hvalues
          generalize ((h.view r).slots.mapM fun slot =>
            h.copyAt limit room slot.2).run (beginCopy s r (h.view r)) = outcome' at hvalues
          cases hvalues with
          | error => exact .error
          | @ok docs ws seen' added s' hkeys' c hws =>
            exact .ok hkeys' (c.enter hfresh hws) (.node (by simp [c.done_eq, beginCopy]))

/-! ## The copied graph -/

section Copied

variable {h : Heap X} {x y : Value X} {added : List (Ref × Ref)} {s : Copying X}

/-- The container to which a container was copied; no other is given to two. -/
def copyOf (s : Copying X) (r : Ref) : Ref :=
  (s.done.lookup r).getD (s.heap.size + r)

theorem Copied.copyOf_injective (c : h.Copied ⟨h, []⟩ added s) :
    Function.Injective (copyOf s) := by
  have hdone : s.done = added := by rw [c.done_eq, List.append_nil]
  intro r r' heq
  simp only [copyOf, hdone] at heq
  cases hl : added.lookup r with
  | some q =>
    have hq := lookup_eq_some_mem hl
    cases hl' : added.lookup r' with
    | some q' =>
      rw [hl, hl'] at heq
      have hmem := lookup_eq_some_mem hl'
      exact (Prod.mk.inj (List.inj_on_of_nodup_map c.copies_nodup hq hmem heq)).1
    | none =>
      rw [hl, hl'] at heq
      have hlt : q < s.heap.size := (c.span _ hq).2
      rw [show q = s.heap.size + r' from heq] at hlt
      exact absurd hlt (Nat.not_lt_of_le (Nat.le_add_right _ _))
  | none =>
    cases hl' : added.lookup r' with
    | some q' =>
      rw [hl, hl'] at heq
      have hlt : q' < s.heap.size := (c.span _ (lookup_eq_some_mem hl')).2
      rw [show q' = s.heap.size + r from heq.symm] at hlt
      exact absurd hlt (Nat.not_lt_of_le (Nat.le_add_right _ _))
    | none =>
      rw [hl, hl'] at heq
      exact Nat.add_left_cancel heq

/-- A copy is the renamed value. -/
theorem Copied.copies_eq (hnodup : (s.done.map Prod.fst).Nodup) {v w : Value X}
    (hw : Copies s.done v w) : w = v.relabel (copyOf s) := by
  cases hw with
  | leaf hv => rw [Value.relabel_of_leaf _ hv]
  | node hmem => rw [Value.relabel, copyOf, lookup_of_mem hnodup hmem, Option.getD_some]

/-- All containers below the root were copied. -/
theorem Copied.mem_done (c : h.Copied ⟨h, []⟩ added s) (hx : Copies s.done x y) {r : Ref}
    (hr : h.Reaches x r) : ∃ q, (r, q) ∈ added := by
  have hdone : s.done = added := by rw [c.done_eq, List.append_nil]
  induction hr with
  | root heq =>
    subst heq
    cases hx with
    | leaf hleaf => cases hleaf
    | node hmem => exact ⟨_, hdone ▸ hmem⟩
  | step _ hmem ih =>
    obtain ⟨q, hq⟩ := ih
    rw [← View.slots_snd] at hmem
    obtain ⟨slot, hslot, hv⟩ := List.mem_map.1 hmem
    obtain ⟨i, hi⟩ := List.getElem?_of_mem hslot
    obtain ⟨u, hu⟩ := (c.filled _ hq).exists_rel hi
    rw [hv] at hu
    cases hu with
    | leaf hleaf => cases hleaf
    | node hmem => exact ⟨_, hdone ▸ hmem⟩

/-- A copy is the array or object of the container, with the values renamed. -/
theorem Copied.cell?_copyOf (c : h.Copied ⟨h, []⟩ added s) (hnodup : (s.done.map Prod.fst).Nodup)
    (hx : Copies s.done x y) {r : Ref} (hr : h.Reaches x r) :
    s.heap.cell? (copyOf s r) = some ((h.view r).mapValues (.relabel (copyOf s))).cell := by
  have hdone : s.done = added := by rw [c.done_eq, List.append_nil]
  obtain ⟨q, hq⟩ := c.mem_done hx hr
  have hcopy : copyOf s r = q := by
    rw [copyOf, lookup_of_mem hnodup (hdone.symm ▸ hq), Option.getD_some]
  rw [hcopy]
  refine (Fills.mapValues ?_).cell?_eq
  exact (c.filled _ hq).mono (fun _ hc => hc) fun _ _ _ _ hu => Copied.copies_eq hnodup hu

/-- A copy has the latest fields of the container, their values renamed. -/
theorem Copied.view_copyOf (c : h.Copied ⟨h, []⟩ added s) (hnodup : (s.done.map Prod.fst).Nodup)
    (hx : Copies s.done x y) {r : Ref} (hr : h.Reaches x r) :
    s.heap.view (copyOf s r) = (h.view r).latest.mapValues (.relabel (copyOf s)) := by
  rw [view_cell (c.cell?_copyOf hnodup hx hr), View.latest_mapValues]

end Copied

/-- To encode a graph in which no map has two keys of one name is to normalize it and then
encode it: either fails if the other does, and they give the same tree. -/
theorem encode_normalize (h : Heap X) (x : Value X) (hkeys : h.DistinctKeys x) :
    (h.normalize x >>= fun y => y.2.encode DepthProfile.codec.limit y.1) =
      h.encode DepthProfile.codec.limit x := by
  have hnames : ∀ r, h.Reaches x r → (h.view r).names.Nodup := fun r hr => hkeys.names_nodup hr
  generalize hlimit : DepthProfile.codec.limit = limit
  have halong := copyAt_alongside h limit limit.toNat [] x [] ⟨h, []⟩ rfl
  simp only [normalize, encode, hlimit]
  cases hrun : (h.encodeAt limit limit.toNat [] x).run [] with
  | error e =>
    rw [hrun] at halong
    generalize (h.copyAt limit limit.toNat x).run ⟨h, []⟩ = outcome at halong ⊢
    cases halong
    rfl
  | ok result =>
    obtain ⟨e, seen⟩ := result
    rw [hrun] at halong
    generalize (h.copyAt limit limit.toNat x).run ⟨h, []⟩ = outcome at halong ⊢
    cases halong with
    | @ok _ y _ added s hseen c hy =>
      obtain ⟨places, E⟩ := encodes_encodeAt h limit limit.toNat [] x [] e seen h hnames
        ⟨by simp, by simp⟩ (by simp [Unvisited]) hrun
      have hnodup : (s.done.map Prod.fst).Nodup := hseen ▸ E.distinct.sources_nodup
      have hrelabel := encodeAt_relabel c.copyOf_injective limit limit.toNat [] x
        (fun r hr => by rw [c.view_copyOf hnodup hy hr, View.latest_of_nodup (hnames r hr)]) []
      rw [hrun, ← Copied.copies_eq hnodup hy] at hrelabel
      show Except.map Prod.fst ((s.heap.encodeAt limit limit.toNat [] y).run []) = .ok e
      rw [show ([] : Seen) = relabelSeen (copyOf s) [] from rfl, hrelabel]
      rfl

/-- An array that holds a map and the first of the two containers in the map.  The keys of
the map are a truth value and a string. -/
def fork (name : String) : Heap Unit :=
  ⟨#[.array [.node 1, .node 2], .map [(.bool true, .node 2), (.string name, .node 3)], .array [],
    .object Table.empty]⟩

theorem encode_normalize_fork :
    (fork "false").DistinctKeys (.node 0) ∧
      ((fork "false").normalize (.node 0) >>= fun y => y.2.encode DepthProfile.codec.limit y.1) =
        (fork "false").encode DepthProfile.codec.limit (.node 0) := by
  have hkeys : (fork "false").DistinctKeys (.node 0) := by
    intro r entries _ hcell
    rcases r with _ | _ | _ | _ | r <;> simp [fork, cell?] at hcell
    subst hcell
    decide +kernel
  exact ⟨hkeys, encode_normalize _ _ hkeys⟩

/-- Of two entries with one name the encoder keeps the second, but it has met the first by
then: a token for it leads to the other container, and its content is lost. -/
theorem encode_fork_ne_encode_normalize :
    ((fork "true").normalize (.node 0) >>= fun y => y.2.encode DepthProfile.codec.limit y.1) ≠
      (fork "true").encode DepthProfile.codec.limit (.node 0) := by
  intro heq
  have hsecond := congrArg
    (fun outcome => (outcome.toOption.bind (Document.at? 1)).map Document.keys) heq
  revert hsecond
  decide +kernel

end Heap

end TypeDescription
