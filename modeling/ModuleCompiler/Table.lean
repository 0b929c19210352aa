import ModuleCompiler.Text.Basic

/-!
# Tables

A table maps texts to values. Its entries stand in ascending order of their keys, by code point,
so walking a table visits the keys in one fixed order however it was filled. What one change does to
every look-up is `get?_insert` and `get?_insertNew`; by `mem_entries_iff` the entries are exactly
what look-ups find.
-/

namespace ModuleCompiler

/-- Entries with distinct keys in ascending order. -/
structure Table (α : Type) where
  entries : List (Text × α)
  ascending : entries.Pairwise fun a b => a.1 < b.1
deriving DecidableEq

namespace Table

variable {α : Type}

/-- The table without entries. -/
def empty : Table α :=
  ⟨[], List.Pairwise.nil⟩

instance : EmptyCollection (Table α) := ⟨empty⟩

instance : Inhabited (Table α) := ⟨empty⟩

/-- The value stored under `key`. -/
def get? (table : Table α) (key : Text) : Option α :=
  table.entries.lookup key

/-- Whether `key` has an entry. -/
def contains (table : Table α) (key : Text) : Bool :=
  (table.get? key).isSome

/-- The keys, in ascending order. -/
def keys (table : Table α) : List Text :=
  table.entries.map Prod.fst

/-- The values, in the order of their keys. -/
def values (table : Table α) : List α :=
  table.entries.map Prod.snd

/-- The number of entries. -/
def size (table : Table α) : Nat :=
  table.entries.length

/-- Whether there is no entry. -/
def isEmpty (table : Table α) : Bool :=
  table.entries.isEmpty

/-! ## Adding entries -/

/-- Puts an entry at its place in an ascending list, in place of one with the same key. -/
def insertEntry (key : Text) (value : α) : List (Text × α) → List (Text × α)
  | [] => [(key, value)]
  | entry :: rest =>
    if key < entry.1 then (key, value) :: entry :: rest
    else if key = entry.1 then (key, value) :: rest
    else entry :: insertEntry key value rest

/-- Putting in an entry adds no other. -/
theorem mem_insertEntry {key : Text} {value : α} {entry : Text × α} {entries : List (Text × α)}
    (h : entry ∈ insertEntry key value entries) : entry = (key, value) ∨ entry ∈ entries := by
  induction entries with
  | nil => simpa [insertEntry] using h
  | cons head rest ih =>
    simp only [insertEntry] at h
    split at h
    · simpa using h
    · split at h <;> simp only [List.mem_cons] at h ⊢ <;> grind

/-- Putting in an entry keeps the keys ascending. -/
theorem pairwise_insertEntry (key : Text) (value : α) {entries : List (Text × α)}
    (h : entries.Pairwise fun a b => a.1 < b.1) :
    (insertEntry key value entries).Pairwise fun a b => a.1 < b.1 := by
  induction entries with
  | nil => simp [insertEntry]
  | cons head rest ih =>
    rw [List.pairwise_cons] at h
    simp only [insertEntry]
    split
    · -- the new key is the least
      rename_i hlt
      refine List.Pairwise.cons ?_ (List.pairwise_cons.2 h)
      intro entry hmem
      rcases List.mem_cons.1 hmem with rfl | hmem
      · exact hlt
      · exact List.lt_trans hlt (h.1 _ hmem)
    · split
      · -- the key is there already, and keeps its place
        rename_i heq
        subst heq
        exact List.Pairwise.cons h.1 h.2
      · -- the new entry goes further down, behind a smaller key
        rename_i hnlt hne
        refine List.Pairwise.cons ?_ (ih h.2)
        intro entry hmem
        rcases mem_insertEntry hmem with rfl | hmem
        · exact Decidable.byContradiction fun h => hne (Std.Trichotomous.trichotomous _ _ hnlt h)
        · exact h.1 _ hmem

/-- Stores `value` under `key`, in place of what was stored there. -/
def insert (table : Table α) (key : Text) (value : α) : Table α :=
  ⟨insertEntry key value table.entries, pairwise_insertEntry key value table.ascending⟩

/-- Stores `value` under `key` unless something is stored there already. -/
def insertNew (table : Table α) (key : Text) (value : α) : Table α :=
  if table.contains key then table else table.insert key value

/-- The table of the given entries; of several with one key the last counts. -/
def ofList (entries : List (Text × α)) : Table α :=
  entries.foldl (fun table entry => table.insert entry.1 entry.2) empty

/-! ## Look-ups -/

/-- In a list as well, only the look-up of the inserted key changes. -/
theorem lookup_insertEntry (key other : Text) (value : α) (entries : List (Text × α)) :
    (insertEntry key value entries).lookup other
      = if other = key then some value else entries.lookup other := by
  induction entries with
  | nil => grind [insertEntry]
  | cons head rest ih => grind [insertEntry]

@[simp] theorem get?_empty (key : Text) : (empty : Table α).get? key = none := rfl

/-- Storing under a key changes the look-up of this key only. -/
theorem get?_insert (table : Table α) (key other : Text) (value : α) :
    (table.insert key value).get? other = if other = key then some value else table.get? other :=
  lookup_insertEntry key other value table.entries

/-- Storing unless something is stored keeps what is there. -/
theorem get?_insertNew (table : Table α) (key other : Text) (value : α) :
    (table.insertNew key value).get? other
      = if other = key then (table.get? key).or (some value) else table.get? other := by
  unfold insertNew contains
  split
  · rename_i h
    obtain ⟨stored, hstored⟩ := Option.isSome_iff_exists.1 h
    by_cases hk : other = key
    · simp [hk, hstored]
    · simp [hk]
  · rename_i h
    have hnone : table.get? key = none := by simpa using h
    simp [get?_insert, hnone]

/-- In an ascending list every entry is found: its key does not stand further up. -/
theorem lookup_eq_some_iff {entries : List (Text × α)}
    (h : entries.Pairwise fun a b => a.1 < b.1) (key : Text) (value : α) :
    entries.lookup key = some value ↔ (key, value) ∈ entries := by
  induction entries with
  | nil => simp
  | cons head rest ih =>
    obtain ⟨k, v⟩ := head
    rw [List.pairwise_cons] at h
    rw [List.lookup_cons, List.mem_cons, Prod.mk.injEq]
    by_cases hk : key = k
    · subst hk
      -- the keys behind are greater
      have hnot : (key, value) ∉ rest := fun hmem =>
        absurd (h.1 _ hmem) (List.lt_irrefl key)
      simp [hnot, eq_comm]
    · have hbeq : (key == k) = false := by simpa using hk
      simp [hbeq, hk, ih h.2]

/-- The entries are exactly what look-ups find. -/
theorem mem_entries_iff (table : Table α) (key : Text) (value : α) :
    (key, value) ∈ table.entries ↔ table.get? key = some value :=
  (lookup_eq_some_iff table.ascending key value).symm

end Table

end ModuleCompiler
