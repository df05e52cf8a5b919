import Mathlib.Data.List.Forall2
import Mathlib.Data.List.Induction
import TypeDescription.Document
import TypeDescription.Table

/-!
# Fields of repeated names

A table and an object that are made of a list of fields are the same: the last value of a repeated
name counts, at the place of the first (`Table.get?_ofList`, `Table.keys_ofList`,
`Document.ofFields_eq`).  Values may be rewritten before or after the table is made
(`Table.ofList_map`), and missing ones left out if all of their name are missing
(`Table.entries_ofList_filterMap`).
-/

namespace TypeDescription

namespace Table

variable {α : Type}

theorem mem_keys_iff (t : Table α) (key : String) :
    key ∈ t.keys ↔ ∃ value, t.get? key = some value := by
  simp [keys, get?_eq_some_iff]

theorem mem_values_of_get? {t : Table α} {key : String} {value : α}
    (h : t.get? key = some value) : value ∈ t.values :=
  List.mem_map_of_mem ((t.get?_eq_some_iff).1 h)

theorem ofList_concat (entries : List (String × α)) (key : String) (value : α) :
    ofList (entries ++ [(key, value)]) = (ofList entries).insert key value := by
  rw [ofList, List.foldl_append]
  rfl

/-- The names of a table are those of its entries, each at its first place. -/
theorem keys_ofList (entries : List (String × α)) :
    (ofList entries).keys = (entries.map Prod.fst).eraseDups := by
  induction entries using List.reverseRecOn with
  | nil => rfl
  | append_singleton entries entry ih =>
    have hmem : entry.1 ∈ (entries.map Prod.fst).eraseDups ↔ entry.1 ∈ entries.map Prod.fst :=
      List.mem_eraseDups
    rw [ofList_concat, keys_insert, ih, List.map_append, List.eraseDups_append]
    by_cases h : entry.1 ∈ entries.map Prod.fst
    · rw [if_pos (hmem.2 h)]
      simp [List.removeAll, h]
    · rw [if_neg (mt hmem.1 h)]
      simp [List.removeAll, h, List.eraseDups_cons]

/-- The value under a name is that of the last entry with the name. -/
theorem get?_ofList (entries : List (String × α)) (key : String) :
    (ofList entries).get? key =
      (entries.reverse.find? fun entry => entry.1 == key).map Prod.snd := by
  induction entries using List.reverseRecOn with
  | nil => rfl
  | append_singleton entries entry ih =>
    rw [ofList_concat, List.reverse_append, List.reverse_singleton, List.singleton_append]
    by_cases h : entry.1 = key
    · subst h
      rw [get?_insert_self, List.find?_cons_of_pos (by simp)]
      rfl
    · rw [get?_insert_of_ne _ _ (Ne.symm h), ih, List.find?_cons_of_neg (by simpa using h)]

/-- A table holds entries that it was made of. -/
theorem entries_ofList_subset (entries : List (String × α)) :
    (ofList entries).entries ⊆ entries := by
  rintro ⟨key, value⟩ hentry
  rw [← get?_eq_some_iff, get?_ofList, Option.map_eq_some_iff] at hentry
  obtain ⟨⟨key', _⟩, hfound, rfl⟩ := hentry
  obtain rfl : key' = key := by simpa using List.find?_some hfound
  exact List.mem_reverse.1 (List.mem_of_find?_eq_some hfound)

theorem values_ofList_subset (entries : List (String × α)) :
    (ofList entries).values ⊆ entries.map Prod.snd :=
  List.map_subset _ (entries_ofList_subset entries)

theorem putEntry_map {β : Type} (f : α → β) (key : String) (value : α)
    (entries : List (String × α)) :
    (putEntry key value entries).map (fun entry => (entry.1, f entry.2)) =
      putEntry key (f value) (entries.map fun entry => (entry.1, f entry.2)) := by
  induction entries with
  | nil => rfl
  | cons entry rest ih =>
    by_cases h : entry.1 = key
    · simp [putEntry, h]
    · simp [putEntry, h, ih]

/-- Each value of a table can be rewritten before or after the table is made. -/
theorem ofList_map {β : Type} (f : α → β) (entries : List (String × α)) :
    ofList (entries.map fun entry => (entry.1, f entry.2)) = (ofList entries).map f := by
  induction entries using List.reverseRecOn with
  | nil => rfl
  | append_singleton entries entry ih =>
    rw [List.map_append, List.map_singleton, ofList_concat, ofList_concat, ih]
    exact eq_of_entries (putEntry_map f entry.1 entry.2 _).symm

section Related

variable {β : Type} {rel : α → β → Prop} {es : List (String × α)} {fs : List (String × β)}

theorem forall₂_putEntry (h : List.Forall₂ (fun e f => f.1 = e.1 ∧ rel e.2 f.2) es fs)
    (key : String) {a : α} {b : β} (hab : rel a b) :
    List.Forall₂ (fun e f => f.1 = e.1 ∧ rel e.2 f.2) (putEntry key a es) (putEntry key b fs) := by
  induction h with
  | nil => exact .cons ⟨rfl, hab⟩ .nil
  | @cons e f es fs hef hrest ih =>
    obtain ⟨hname, hvalue⟩ := hef
    by_cases hkey : e.1 = key
    · have hkey' : f.1 = key := hname.trans hkey
      simp only [putEntry, hkey, hkey', if_true]
      exact .cons ⟨rfl, hab⟩ hrest
    · have hkey' : ¬ f.1 = key := fun heq => hkey (hname.symm.trans heq)
      simp only [putEntry, hkey, hkey', if_false]
      exact .cons ⟨hname, hvalue⟩ ih

/-- Tables that are made of related entries are related entry by entry. -/
theorem forall₂_ofList (h : List.Forall₂ (fun e f => f.1 = e.1 ∧ rel e.2 f.2) es fs) :
    List.Forall₂ (fun e f => f.1 = e.1 ∧ rel e.2 f.2) (ofList es).entries (ofList fs).entries := by
  have hgo : ∀ (t : Table α) (t' : Table β),
      List.Forall₂ (fun e f => f.1 = e.1 ∧ rel e.2 f.2) t.entries t'.entries →
        List.Forall₂ (fun e f => f.1 = e.1 ∧ rel e.2 f.2)
          (es.foldl (fun t e => t.insert e.1 e.2) t).entries
          (fs.foldl (fun t f => t.insert f.1 f.2) t').entries := by
    induction h with
    | nil => exact fun _ _ ht => ht
    | @cons e f _ _ hef _ ih =>
      intro t t' ht
      obtain ⟨name, a⟩ := e
      obtain ⟨name', b⟩ := f
      obtain ⟨rfl, hab⟩ := hef
      exact ih _ _ (forall₂_putEntry ht _ hab)
  exact hgo .empty .empty .nil

end Related

section Present

variable {entries : List (String × Option α)} {key : String} {value : α}

/-- The entry of a value that is there. -/
def present (entry : String × Option α) : Option (String × α) :=
  entry.2.map fun value => (entry.1, value)

@[simp]
theorem present_none (key : String) : present (key, (none : Option α)) = none :=
  rfl

@[simp]
theorem present_some (key : String) (value : α) : present (key, some value) = some (key, value) :=
  rfl

theorem filterMap_putEntry_none (h : ∀ entry ∈ entries, entry.1 = key → entry.2.isSome = false) :
    (putEntry key none entries).filterMap present = entries.filterMap present := by
  induction entries with
  | nil => rfl
  | cons entry rest ih =>
    obtain ⟨name, item⟩ := entry
    obtain ⟨hhead, htail⟩ := List.forall_mem_cons.1 h
    by_cases hkey : name = key
    · obtain rfl : item = none := by simpa using hhead hkey
      simp [putEntry, hkey, List.filterMap_cons]
    · simp [putEntry, hkey, List.filterMap_cons, ih htail]

theorem filterMap_putEntry_some (h : ∀ entry ∈ entries, entry.1 = key → entry.2.isSome = true) :
    (putEntry key (some value) entries).filterMap present =
      putEntry key value (entries.filterMap present) := by
  induction entries with
  | nil => rfl
  | cons entry rest ih =>
    obtain ⟨name, item⟩ := entry
    obtain ⟨hhead, htail⟩ := List.forall_mem_cons.1 h
    by_cases hkey : name = key
    · obtain ⟨_, rfl⟩ := Option.isSome_iff_exists.1 (hhead hkey)
      simp [putEntry, hkey]
    · cases item with
      | none => simp [putEntry, hkey, List.filterMap_cons, ih htail]
      | some _ => simp [putEntry, hkey, ih htail]

/-- Of related values those that are there are related. -/
theorem forall₂_present {β : Type} {rel : α → β → Prop} {es : List (String × Option α)}
    {fs : List (String × Option β)}
    (h : List.Forall₂ (fun e f => f.1 = e.1 ∧ Option.Rel rel e.2 f.2) es fs) :
    List.Forall₂ (fun e f => f.1 = e.1 ∧ rel e.2 f.2) (es.filterMap present)
      (fs.filterMap present) := by
  induction h with
  | nil => exact .nil
  | @cons e f _ _ hef _ ih =>
    obtain ⟨name, item⟩ := e
    obtain ⟨name', item'⟩ := f
    obtain ⟨rfl, hitem⟩ := hef
    cases hitem with
    | none => exact ih
    | some hvalue => exact .cons ⟨rfl, hvalue⟩ ih

/-- Values that are missing can be left out before or after the table is made if all entries of
their names are missing. -/
theorem entries_ofList_filterMap (h : ∀ entry ∈ entries, ∀ other ∈ entries, entry.1 = other.1 →
    entry.2.isSome = other.2.isSome) :
    (ofList (entries.filterMap present)).entries = (ofList entries).entries.filterMap present := by
  induction entries using List.reverseRecOn with
  | nil => rfl
  | append_singleton entries entry ih =>
    obtain ⟨name, item⟩ := entry
    have hbefore := ih fun entry hentry other hother =>
      h entry (List.mem_append_left _ hentry) other (List.mem_append_left _ hother)
    have hsame : ∀ entry ∈ (ofList entries).entries, entry.1 = name →
        entry.2.isSome = item.isSome := fun entry hentry =>
      h entry (List.mem_append_left _ (entries_ofList_subset entries hentry)) (name, item)
        (by simp)
    rw [List.filterMap_append, ofList_concat]
    cases item with
    | none =>
      have hput := filterMap_putEntry_none hsame
      simpa [insert, hput, List.filterMap_cons] using hbefore
    | some value =>
      have hput : (putEntry name (some value) (ofList entries).entries).filterMap present = _ :=
        filterMap_putEntry_some hsame
      simpa [insert, hput, ofList_concat] using congrArg (putEntry name value) hbefore

end Present

end Table

namespace Document

section Fields

variable {α : Type} {fields : List (String × Document α)} {key : String} {value : Document α}

theorem putField_eq (fields : List (String × Document α)) :
    putField key value fields = Table.putEntry key value fields := by
  induction fields with
  | nil => rfl
  | cons field rest ih => rw [putField, Table.putEntry, ih]

/-- An object of fields is the table of them. -/
theorem ofFields_eq (fields : List (String × Document α)) :
    ofFields fields = .object (Table.ofList fields).entries := by
  have hgo : ∀ t : Table (Document α),
      fields.foldl (fun taken field => putField field.1 field.2 taken) t.entries =
        (fields.foldl (fun t field => t.insert field.1 field.2) t).entries := by
    induction fields with
    | nil => exact fun _ => rfl
    | cons field rest ih =>
      intro t
      rw [List.foldl_cons, putField_eq]
      exact ih (t.insert field.1 field.2)
  exact congrArg Document.object (hgo .empty)

/-- Fields with distinct names are the object as they stand. -/
theorem ofFields_of_nodup (h : (fields.map Prod.fst).Nodup) :
    ofFields fields = .object fields := by
  rw [ofFields_eq, Table.entries_ofList h]

end Fields

end Document

end TypeDescription
