import Mathlib.Data.List.Forall2
import TypeDescription.Graph.Resolve
import TypeDescription.Proofs.Path

/-!
# What a path leads to

`Heap.Leads` is the rule of one step: an object has the property of the name of the step, a map the
last entry of this name, and an array or a set the element that the step addresses.  There is
nothing in a scalar or behind an exempt marker.  `Heap.LeadsTo` takes the steps of a path one after
the other.

* `Heap.resolve` finds exactly what the rule leads to (`resolve_eq_some_iff`).
* An index may be written as a key (`resolve_follows`): an element is also addressed by a key of
  digits, and a plus sign may stand before them.
-/

namespace TypeDescription

variable {X : Type}

/-! ## Elements -/

namespace Step

/-- The elements that a step addresses, by their positions. -/
inductive Addresses : Step → Nat → Prop
  | index (i : UInt64) : Addresses (.index i) i.toNat
  | digits {name : String} (hne : name.toList ≠ []) (hdigits : ∀ c ∈ name.toList, c.isDigit) :
      Addresses (.key name) (Nat.ofDigitChars 10 name.toList 0)
  | plus {name : String} {digits : List Char} (hname : name.toList = '+' :: digits)
      (hne : digits ≠ []) (hdigits : ∀ c ∈ digits, c.isDigit) :
      Addresses (.key name) (Nat.ofDigitChars 10 digits 0)

theorem elementIndex?_key {name : String} {i : Nat} :
    (key name).elementIndex? = some i ↔ unsigned name.toList ≠ [] ∧
      (∀ c ∈ unsigned name.toList, c.isDigit) ∧
      Nat.ofDigitChars 10 (unsigned name.toList) 0 = i := by
  have hguard :
      (!(unsigned name.toList).isEmpty && (unsigned name.toList).all Char.isDigit) = true ↔
        unsigned name.toList ≠ [] ∧ ∀ c ∈ unsigned name.toList, c.isDigit := by
    simp
  simp only [elementIndex?, foldDigits_eq, hguard]
  split_ifs with h
  · rw [Option.some.injEq]
    exact ⟨fun heq => ⟨h.1, h.2, heq⟩, fun hall => hall.2.2⟩
  · exact ⟨fun heq => absurd heq (by simp), fun hall => absurd ⟨hall.1, hall.2.1⟩ h⟩

theorem unsigned_of_digits {cs : List Char} (h : ∀ c ∈ cs, c.isDigit) : unsigned cs = cs := by
  cases cs with
  | nil => rfl
  | cons c cs =>
    have hc : c ≠ '+' := by
      intro heq
      subst heq
      exact absurd (h _ List.mem_cons_self) (by decide)
    simp [unsigned, hc]

theorem elementIndex?_eq_some_iff {s : Step} {i : Nat} :
    s.elementIndex? = some i ↔ s.Addresses i := by
  cases s with
  | index n =>
    constructor
    · intro h
      obtain rfl := Option.some.inj h
      exact .index n
    · intro h
      cases h
      rfl
  | key name =>
    rw [elementIndex?_key]
    constructor
    · intro h
      obtain ⟨hne, hdigits, rfl⟩ := h
      by_cases hplus : ∃ digits, name.toList = '+' :: digits
      · obtain ⟨digits, hname⟩ := hplus
        rw [hname] at hne hdigits ⊢
        exact .plus hname hne hdigits
      · have hunsigned : unsigned name.toList = name.toList := by
          unfold unsigned
          split
          · next digits hname => exact absurd ⟨digits, hname⟩ hplus
          · rfl
        rw [hunsigned] at hne hdigits ⊢
        exact .digits hne hdigits
    · intro h
      cases h with
      | digits hne hdigits =>
        rw [unsigned_of_digits hdigits]
        exact ⟨hne, hdigits, rfl⟩
      | plus hname hne hdigits =>
        rw [hname]
        exact ⟨hne, hdigits, rfl⟩

/-- A step, or the key of its name in the place of the step. -/
def Respelt (s s' : Step) : Prop :=
  s' = s ∨ s' = .key s.name

/-- The decimal text of an index addresses the same element. -/
theorem elementIndex?_name (s : Step) : (key s.name).elementIndex? = s.elementIndex? := by
  cases s with
  | index i =>
    have hlist : (toString i.toNat).toList = Nat.toDigits 10 i.toNat := by
      simp
    have hdigits : ∀ c ∈ Nat.toDigits 10 i.toNat, c.isDigit :=
      fun c hc => Nat.isDigit_of_mem_toDigits (by decide) (by decide) hc
    rw [name, elementIndex?_key.2]
    · rfl
    · rw [hlist, unsigned_of_digits hdigits]
      exact ⟨Nat.toDigits_ne_nil, hdigits, Nat.ofDigitChars_ten_toDigits⟩
  | key name => rfl

end Step

/-! ## Steps -/

namespace Heap

variable {h : Heap X}

/-- A step leads from a container to a value in it. -/
inductive Leads (h : Heap X) : Value X → Step → Value X → Prop
  | property {r : Ref} {properties : Table (Value X)} {s : Step} {w : Value X}
      (hcell : h.cell? r = some (.object properties)) (hmem : (s.name, w) ∈ properties.entries) :
      Leads h (.node r) s w
  /-- Of the entries with the name of the step, the last one counts. -/
  | entry {r : Ref} {before after : List (Value X × Value X)} {s : Step} {k w : Value X}
      (hcell : h.cell? r = some (.map (before ++ (k, w) :: after)))
      (hkey : h.propertyKey k = s.name) (hlast : ∀ e ∈ after, h.propertyKey e.1 ≠ s.name) :
      Leads h (.node r) s w
  | element {r : Ref} {items : List (Value X)} {s : Step} {i : Nat} {w : Value X}
      (hcell : h.cell? r = some (.array items) ∨ h.cell? r = some (.set items))
      (hi : s.Addresses i) (hitem : items[i]? = some w) : Leads h (.node r) s w

theorem find?_reverse_eq_some_iff {α : Type} {p : α → Bool} {l : List α} {a : α} :
    l.reverse.find? p = some a ↔
      p a = true ∧ ∃ before after, l = before ++ a :: after ∧ ∀ b ∈ after, p b = false := by
  rw [List.find?_eq_some_iff_append]
  refine and_congr_right fun _ => ?_
  constructor
  · intro h
    obtain ⟨after, before, heq, hnone⟩ := h
    refine ⟨before.reverse, after.reverse, ?_, ?_⟩
    · rw [← List.reverse_reverse l, heq]
      simp
    · simpa using hnone
  · intro h
    obtain ⟨before, after, rfl, hnone⟩ := h
    exact ⟨after.reverse, before.reverse, by simp, by simpa using hnone⟩

theorem element?_eq_some_iff {items : List (Value X)} {s : Step} {w : Value X} :
    (s.elementIndex?.bind fun i => items[i]?) = some w ↔
      ∃ i, s.Addresses i ∧ items[i]? = some w := by
  rw [Option.bind_eq_some_iff]
  exact exists_congr fun i => and_congr_left fun _ => Step.elementIndex?_eq_some_iff

/-- A look-up finds what the step leads to. -/
theorem step?_eq_some_iff {v w : Value X} {s : Step} : h.step? v s = some w ↔ h.Leads v s w := by
  constructor
  · intro hw
    unfold step? at hw
    cases v with
    | node r =>
      dsimp only [content?] at hw
      split at hw
      · next items hcell =>
        obtain ⟨i, hi, hitem⟩ := element?_eq_some_iff.1 hw
        exact .element (.inl hcell) hi hitem
      · next items hcell =>
        obtain ⟨i, hi, hitem⟩ := element?_eq_some_iff.1 hw
        exact .element (.inr hcell) hi hitem
      · next properties hcell => exact .property hcell ((Table.get?_eq_some_iff _).1 hw)
      · next entries hcell =>
        obtain ⟨⟨k, _⟩, hfound, rfl⟩ := Option.map_eq_some_iff.1 hw
        obtain ⟨hkey, before, after, rfl, hlast⟩ := find?_reverse_eq_some_iff.1 hfound
        exact .entry hcell (by simpa using hkey) (by simpa using hlast)
      · cases hw
    | _ => cases hw
  · intro hw
    cases hw with
    | property hcell hmem => simp [step?, content?, hcell, (Table.get?_eq_some_iff _).2 hmem]
    | @entry r before after s k w hcell hkey hlast =>
      have hfound : (before ++ (k, w) :: after).reverse.find?
          (fun e => h.propertyKey e.1 == s.name) = some (k, w) :=
        find?_reverse_eq_some_iff.2 ⟨by simpa using hkey, before, after, rfl, by simpa using hlast⟩
      simp only [step?, content?, hcell, hfound, Option.map_some]
    | element hcell hi hitem =>
      have hfound := element?_eq_some_iff.2 ⟨_, hi, hitem⟩
      rcases hcell with hcell | hcell
      · simpa only [step?, content?, hcell] using hfound
      · simpa only [step?, content?, hcell] using hfound

/-- A step may be replaced by the key of its name. -/
theorem step?_name (h : Heap X) (v : Value X) (s : Step) :
    h.step? v (.key s.name) = h.step? v s := by
  unfold step?
  rw [Step.elementIndex?_name]
  rfl

/-! ## Paths -/

/-- The steps of a path lead one after the other from a value to another. -/
inductive LeadsTo (h : Heap X) : Value X → Path → Value X → Prop
  | here (v : Value X) : LeadsTo h v [] v
  | step {v u w : Value X} {s : Step} {path : Path} (hs : h.Leads v s u)
      (hpath : LeadsTo h u path w) : LeadsTo h v (s :: path) w

theorem resolve_eq_some_iff {v w : Value X} {path : Path} :
    h.resolve v path = some w ↔ h.LeadsTo v path w := by
  induction path generalizing v with
  | nil =>
    constructor
    · intro hw
      obtain rfl := Option.some.inj hw
      exact .here v
    · intro hw
      cases hw
      rfl
  | cons s path ih =>
    have hcons : h.resolve v (s :: path) = (h.step? v s).bind fun u => h.resolve u path := rfl
    rw [hcons, Option.bind_eq_some_iff]
    constructor
    · intro hw
      obtain ⟨u, hu, hw⟩ := hw
      exact .step (step?_eq_some_iff.1 hu) (ih.1 hw)
    · intro hw
      cases hw with
      | step hs hpath => exact ⟨_, step?_eq_some_iff.2 hs, ih.2 hpath⟩

theorem resolve_congr {path path' : Path}
    (hsame : List.Forall₂ Step.Respelt path path') (v : Value X) :
    h.resolve v path' = h.resolve v path := by
  induction hsame generalizing v with
  | nil => rfl
  | @cons s s' path path' hs _ ih =>
    have hstep : h.step? v s' = h.step? v s := by
      rcases hs with rfl | rfl
      · rfl
      · exact step?_name h v s
    show (h.step? v s').bind (fun u => h.resolve u path') =
      (h.step? v s).bind fun u => h.resolve u path
    rw [hstep]
    exact congrArg _ (funext ih)

/-- A path resolves to the value that its steps lead to, and to nothing where they lead nowhere.
To write indices as keys changes nothing. -/
theorem resolve_follows (h : Heap X) (root : Value X) :
    (∀ path w, h.resolve root path = some w ↔ h.LeadsTo root path w) ∧
      ∀ path path' : Path, List.Forall₂ Step.Respelt path path' →
        h.resolve root path' = h.resolve root path :=
  ⟨fun _ _ => resolve_eq_some_iff, fun _ _ hsame => resolve_congr hsame root⟩

/-- An array with a map, an object and a string.  The keys of the map have one name, and so has the
second property of the object. -/
def drawer : Heap Unit :=
  ⟨#[.array [.node 1, .node 2, .string "lid"],
    .map [(.bool true, .string "first"), (.string "true", .node 0)],
    .object (Table.ofList [("0", .exempt (.node 0)), ("true", .node 1)])]⟩

theorem resolve_follows_drawer :
    List.Forall₂ Step.Respelt [.index 1, .key "true", .key "true", .index 2]
        [.key "1", .key "true", .key "true", .index 2] ∧
      drawer.resolve (.node 0) [.key "1", .key "true", .key "true", .index 2] =
        drawer.resolve (.node 0) [.index 1, .key "true", .key "true", .index 2] ∧
      drawer.LeadsTo (.node 0) [.index 1, .key "true", .key "true", .index 2] (.string "lid") := by
  have hsame : List.Forall₂ Step.Respelt [.index 1, .key "true", .key "true", .index 2]
      [.key "1", .key "true", .key "true", .index 2] :=
    .cons (.inr (by decide)) (.cons (.inl rfl) (.cons (.inl rfl) (.cons (.inl rfl) .nil)))
  obtain ⟨hfollows, hrespelt⟩ := resolve_follows drawer (.node 0)
  exact ⟨hsame, hrespelt _ _ hsame, (hfollows _ _).1 (by decide +kernel)⟩

/-- A key of a plus sign and digits addresses an element although it is no string of digits. -/
theorem resolve_signed_key :
    ¬ ∀ (h : Heap Unit) (r : Ref) (items : List (Value Unit)), h.cell? r = some (.array items) →
      ∀ (name : String) (w : Value Unit), h.resolve (.node r) [.key name] = some w ↔
        (name.toList ≠ [] ∧ ∀ c ∈ name.toList, c.isDigit) ∧
          items[Nat.ofDigitChars 10 name.toList 0]? = some w := by
  intro hdigits
  have hfound := hdigits ⟨#[.array [.bool false, .bool true]]⟩ 0 _ rfl "+1" (.bool true)
  have hsigned := (hfound.1 (by decide +kernel)).1.2 '+' (by decide)
  exact absurd hsigned (by decide)

end Heap

end TypeDescription
