/-!
# Tables in insertion order

A `Table` maps names to values and remembers the order in which the names were
first inserted.  Inserting under a name that is already there replaces its
value and keeps its place.

The main facts: `Table.keys_insert`, `Table.get?_insert_self`,
`Table.get?_insert_of_ne`, `Table.keys_setAt`, `Table.entries_ofList` and
`Table.get?_eq_some_iff`.
-/

namespace TypeDescription

universe u v

/-- Named values in insertion order, no name twice. -/
structure Table (α : Type u) where
  entries : List (String × α)
  keys_nodup : (entries.map Prod.fst).Nodup
deriving DecidableEq

namespace Table

variable {α : Type u} {β : Type v}

/-! ## Entries -/

/-- Give `key` the value `value`: in its place if it is there, else at the
end. -/
def putEntry (key : String) (value : α) : List (String × α) → List (String × α)
  | [] => [(key, value)]
  | (k, v) :: rest =>
      if k = key then (k, value) :: rest else (k, v) :: putEntry key value rest

theorem map_fst_putEntry (key : String) (value : α) (entries : List (String × α)) :
    (putEntry key value entries).map Prod.fst =
      if key ∈ entries.map Prod.fst then entries.map Prod.fst
      else entries.map Prod.fst ++ [key] := by
  induction entries with
  | nil => simp [putEntry]
  | cons entry rest ih =>
    obtain ⟨k, v⟩ := entry
    by_cases h : k = key
    · simp [putEntry, h]
    · have h' : ¬ key = k := fun e => h e.symm
      by_cases hm : key ∈ rest.map Prod.fst
      · rw [if_pos hm] at ih
        simp only [putEntry, if_neg h, List.map_cons, ih]
        rw [if_pos (List.mem_cons_of_mem k hm)]
      · rw [if_neg hm] at ih
        simp only [putEntry, if_neg h, List.map_cons, ih]
        rw [if_neg (by simp only [List.mem_cons, not_or]; exact ⟨h', hm⟩)]
        rfl

theorem nodup_putEntry (key : String) (value : α) {entries : List (String × α)}
    (h : (entries.map Prod.fst).Nodup) :
    ((putEntry key value entries).map Prod.fst).Nodup := by
  rw [map_fst_putEntry]
  split
  · exact h
  · next hm =>
    rw [List.nodup_append]
    refine ⟨h, by simp, ?_⟩
    intro a ha b hb hab
    simp only [List.mem_singleton] at hb
    subst hb
    subst hab
    exact hm ha

theorem putEntry_of_notMem {key : String} {value : α} {entries : List (String × α)}
    (h : key ∉ entries.map Prod.fst) :
    putEntry key value entries = entries ++ [(key, value)] := by
  induction entries with
  | nil => rfl
  | cons entry rest ih =>
    obtain ⟨k, v⟩ := entry
    simp only [List.map_cons, List.mem_cons, not_or] at h
    have hk : ¬ k = key := fun e => h.1 e.symm
    simp only [putEntry, if_neg hk, ih h.2, List.cons_append]

/-- Replace the value of the entry at a position. -/
def setEntry (value : α) : Nat → List (String × α) → List (String × α)
  | _, [] => []
  | 0, (k, _) :: rest => (k, value) :: rest
  | i + 1, entry :: rest => entry :: setEntry value i rest

theorem map_fst_setEntry (value : α) (i : Nat) (entries : List (String × α)) :
    (setEntry value i entries).map Prod.fst = entries.map Prod.fst := by
  induction entries generalizing i with
  | nil => cases i <;> rfl
  | cons entry rest ih => cases i <;> simp [setEntry, ih]

theorem setEntry_zip (value : α) (i : Nat) (keys : List String) (values : List α) :
    setEntry value i (keys.zip values) = keys.zip (values.set i value) := by
  induction keys generalizing i values with
  | nil => cases i <;> rfl
  | cons key keys ih =>
    cases values with
    | nil => cases i <;> rfl
    | cons v values => cases i <;> simp [setEntry, ih]

/-! ## Operations -/

/-- The table without entries. -/
def empty : Table α :=
  ⟨[], by simp⟩

instance : Inhabited (Table α) :=
  ⟨empty⟩

def keys (t : Table α) : List String :=
  t.entries.map Prod.fst

def values (t : Table α) : List α :=
  t.entries.map Prod.snd

def size (t : Table α) : Nat :=
  t.entries.length

/-- The value under a name. -/
def get? (t : Table α) (key : String) : Option α :=
  (t.entries.find? fun entry => entry.1 == key).map Prod.snd

def contains (t : Table α) (key : String) : Bool :=
  (t.get? key).isSome

/-- Insert or replace the value under a name. -/
def insert (t : Table α) (key : String) (value : α) : Table α :=
  ⟨putEntry key value t.entries, nodup_putEntry key value t.keys_nodup⟩

/-- Replace the value at a position. -/
def setAt (t : Table α) (i : Nat) (value : α) : Table α :=
  ⟨setEntry value i t.entries, by rw [map_fst_setEntry]; exact t.keys_nodup⟩

/-- Insert entries one by one, so that the last value of a repeated name
stays, at the place of the first. -/
def ofList (entries : List (String × α)) : Table α :=
  entries.foldl (fun t entry => t.insert entry.1 entry.2) empty

/-- Apply a function to every value. -/
def map (f : α → β) (t : Table α) : Table β :=
  ⟨t.entries.map fun entry => (entry.1, f entry.2), by
    have h := t.keys_nodup
    rw [List.map_map]
    exact h⟩

/-! ## Facts -/

theorem keys_insert (t : Table α) (key : String) (value : α) :
    (t.insert key value).keys = if key ∈ t.keys then t.keys else t.keys ++ [key] :=
  map_fst_putEntry key value t.entries

theorem keys_setAt (t : Table α) (i : Nat) (value : α) :
    (t.setAt i value).keys = t.keys :=
  map_fst_setEntry value i t.entries

/-- Two tables with one list of entries are one table. -/
theorem eq_of_entries {t t' : Table α} (h : t.entries = t'.entries) : t = t' := by
  cases t
  cases t'
  cases h
  rfl

theorem get?_insert_self (t : Table α) (key : String) (value : α) :
    (t.insert key value).get? key = some value := by
  have h : ∀ entries : List (String × α),
      ((putEntry key value entries).find? fun entry => entry.1 == key).map Prod.snd =
        some value := by
    intro entries
    induction entries with
    | nil => simp [putEntry]
    | cons entry rest ih =>
      obtain ⟨k, v⟩ := entry
      by_cases hk : k = key
      · simp [putEntry, hk]
      · simp [putEntry, hk, ih]
  exact h t.entries

theorem get?_insert_of_ne (t : Table α) {key other : String} (value : α)
    (h : other ≠ key) : (t.insert key value).get? other = t.get? other := by
  have h' : ¬ key = other := fun e => h e.symm
  have hl : ∀ entries : List (String × α),
      (putEntry key value entries).find? (fun entry => entry.1 == other) =
        entries.find? fun entry => entry.1 == other := by
    intro entries
    induction entries with
    | nil => simp [putEntry, h']
    | cons entry rest ih =>
      obtain ⟨k, v⟩ := entry
      by_cases hk : k = key
      · subst hk
        simp [putEntry, h']
      · by_cases ho : k = other
        · simp [putEntry, ho, h]
        · simp [putEntry, hk, ho, ih]
  show Option.map Prod.snd _ = Option.map Prod.snd _
  exact congrArg (Option.map Prod.snd) (hl t.entries)

private theorem entries_foldl_insert (rest : List (String × α)) (t : Table α)
    (h : (t.keys ++ rest.map Prod.fst).Nodup) :
    (rest.foldl (fun t entry => t.insert entry.1 entry.2) t).entries = t.entries ++ rest := by
  induction rest generalizing t with
  | nil => simp
  | cons entry rest ih =>
    obtain ⟨key, value⟩ := entry
    have hkey : key ∉ t.keys := by
      intro hmem
      rw [List.nodup_append] at h
      exact h.2.2 key hmem key (by simp) rfl
    have hput : (t.insert key value).entries = t.entries ++ [(key, value)] :=
      putEntry_of_notMem hkey
    have hkeys : (t.insert key value).keys = t.keys ++ [key] := by
      simp [keys, hput]
    rw [List.foldl_cons, ih, hput]
    · simp
    · rw [hkeys]
      simpa using h

/-- Entries with distinct names are kept as they are. -/
theorem entries_ofList {entries : List (String × α)} (h : (entries.map Prod.fst).Nodup) :
    (ofList entries).entries = entries := by
  have := entries_foldl_insert entries empty (by simpa [keys, empty] using h)
  simpa [ofList, empty] using this

/-- A table of distinct names holds the values under them. -/
theorem entries_ofList_zip {names : List String} {values : List α} (hnames : names.Nodup)
    (hlen : values.length = names.length) :
    (ofList (names.zip values)).entries = names.zip values := by
  apply entries_ofList
  rw [List.map_fst_zip (Nat.le_of_eq hlen.symm)]
  exact hnames

/-- The value under a name is that of the only entry with the name. -/
theorem get?_eq_some_iff (t : Table α) {key : String} {value : α} :
    t.get? key = some value ↔ (key, value) ∈ t.entries := by
  have hl : ∀ entries : List (String × α), (entries.map Prod.fst).Nodup →
      ((entries.find? fun entry => entry.1 == key).map Prod.snd = some value ↔
        (key, value) ∈ entries) := by
    intro entries
    induction entries with
    | nil => simp
    | cons entry rest ih =>
      intro h
      obtain ⟨k, v⟩ := entry
      simp only [List.map_cons, List.nodup_cons] at h
      by_cases hk : k = key
      · subst hk
        have hrest : (k, value) ∉ rest := fun hm =>
          h.1 (List.mem_map_of_mem (f := Prod.fst) hm)
        simp [hrest, eq_comm]
      · have hk' : ¬ key = k := fun e => hk e.symm
        simp [hk, hk', ih h.2]
  exact hl t.entries t.keys_nodup

end Table

end TypeDescription
