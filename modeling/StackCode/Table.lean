/-!
# Tables

Finite maps from names to values: a list of entries with distinct names. The entries stand in the
order in which their names were first inserted.
-/

namespace StackCode

/-- A finite map from names. -/
structure Table (α : Type) where
  entries : List (String × α)
  distinct : (entries.map Prod.fst).Nodup
deriving DecidableEq, Repr

namespace Table

variable {α : Type}

/-- The table without entries. -/
def empty : Table α := ⟨[], by simp⟩

instance : Inhabited (Table α) := ⟨empty⟩

/-- The value at `name` in a list of entries: the first one counts. -/
def findEntry (name : String) : List (String × α) → Option α
  | [] => none
  | (other, value) :: rest => if other = name then some value else findEntry name rest

/-- The value at `name`. -/
def get? (t : Table α) (name : String) : Option α :=
  findEntry name t.entries

/-- The number of names. -/
def size (t : Table α) : Nat := t.entries.length

/-- Whether `name` has a value. -/
def contains (t : Table α) (name : String) : Bool :=
  (t.get? name).isSome

/-- Puts `value` at `name`, in place when the name is there and at the end otherwise. -/
def insertEntry (name : String) (value : α) : List (String × α) → List (String × α)
  | [] => [(name, value)]
  | (other, old) :: rest =>
    if other = name then (name, value) :: rest else (other, old) :: insertEntry name value rest

theorem mem_names_insertEntry {name x : String} {value : α} {entries : List (String × α)} :
    x ∈ (insertEntry name value entries).map Prod.fst ↔ x = name ∨ x ∈ entries.map Prod.fst := by
  induction entries with
  | nil => simp [insertEntry]
  | cons e rest ih =>
    obtain ⟨other, old⟩ := e
    by_cases h : other = name
    · simp [insertEntry, h]
    · simp only [insertEntry, h, if_false, List.map_cons, List.mem_cons, ih]
      constructor <;> rintro (h | h | h) <;> simp [h]

theorem nodup_insertEntry (name : String) (value : α) {entries : List (String × α)}
    (h : (entries.map Prod.fst).Nodup) :
    ((insertEntry name value entries).map Prod.fst).Nodup := by
  induction entries with
  | nil => simp [insertEntry]
  | cons e rest ih =>
    obtain ⟨other, old⟩ := e
    simp only [List.map_cons, List.nodup_cons] at h
    by_cases heq : other = name
    · subst heq
      simp [insertEntry, h]
    · simp only [insertEntry, heq, if_false, List.map_cons, List.nodup_cons]
      refine ⟨?_, ih h.2⟩
      rw [mem_names_insertEntry]
      rintro (h' | h')
      · exact heq h'
      · exact h.1 h'

/-- The table with `value` at `name`. -/
def insert (t : Table α) (name : String) (value : α) : Table α :=
  ⟨insertEntry name value t.entries, nodup_insertEntry name value t.distinct⟩

/-- The table without `name`. -/
def erase (t : Table α) (name : String) : Table α :=
  ⟨t.entries.filter fun e => e.1 ≠ name, t.distinct.sublist (List.filter_sublist.map _)⟩

/-- The table with these entries; of two with one name the later one counts. -/
def ofList (entries : List (String × α)) : Table α :=
  entries.foldl (fun t e => t.insert e.1 e.2) empty

/-- The table with the same names and the values changed by `f`. -/
def map {β : Type} (f : α → β) (t : Table α) : Table β :=
  ⟨t.entries.map fun e => (e.1, f e.2), by simpa [Function.comp_def] using t.distinct⟩

/-- Whether some entry has a value that satisfies `p`: the first one. -/
def find? (p : α → Bool) (t : Table α) : Option (String × α) :=
  t.entries.find? fun e => p e.2

theorem findEntry_insertEntry (name other : String) (value : α) (entries : List (String × α)) :
    findEntry other (insertEntry name value entries) =
      if name = other then some value else findEntry other entries := by
  induction entries with
  | nil => rfl
  | cons e rest ih =>
    obtain ⟨n, old⟩ := e
    by_cases h : n = name
    · subst h
      by_cases h' : n = other <;> simp [insertEntry, findEntry, h']
    · by_cases h' : n = other
      · subst h'
        simp [insertEntry, findEntry, h, Ne.symm h]
      · simp [insertEntry, findEntry, h, h', ih]

/-- After an insertion the name has the new value and every other name its old one. -/
theorem get?_insert (t : Table α) (name other : String) (value : α) :
    (t.insert name value).get? other = if name = other then some value else t.get? other :=
  findEntry_insertEntry name other value t.entries

@[simp]
theorem get?_empty (name : String) : (empty : Table α).get? name = none := rfl

end Table

end StackCode
