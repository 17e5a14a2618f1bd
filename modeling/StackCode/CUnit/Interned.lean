import StackCode.Table

/-!
# Numbered texts

Each distinct text gets a number when it is first seen and keeps it. Generated code refers to
symbols, method names, globals and strings by these numbers.

A table of texts holds them twice: in the order of their numbers, and by name with the number. The
two are written one after the other, and a table carries the proof that they say the same.
-/

namespace StackCode.CUnit

/-- A reference to a numbered text: generated code shows the number. -/
structure Ref where
  index : Nat
  text : String
deriving DecidableEq, Repr, Inhabited

/-- The number in C. -/
def Ref.code (r : Ref) : String := toString r.index

/-- Without texts there are no numbers. -/
theorem Interned.numbered_empty (s : String) (i : Nat) :
    (Table.empty : Table Nat).get? s = some i ↔ ([] : List String)[i]? = some s := by
  simp

/-- Texts by number, and numbers by text. -/
structure Interned where
  /-- The texts in the order of their numbers. -/
  entries : List String := []
  /-- The number of each text. -/
  index : Table Nat := .empty
  /-- A text has the number of the place where it stands. -/
  numbered : ∀ (s : String) (i : Nat), index.get? s = some i ↔ entries[i]? = some s := by
    exact StackCode.CUnit.Interned.numbered_empty
deriving DecidableEq, Repr

namespace Interned

instance : Inhabited Interned := ⟨{}⟩

/-- The number of a text that was seen. -/
def get? (t : Interned) (s : String) : Option Nat := t.index.get? s

/-- How many texts there are. -/
def size (t : Interned) : Nat := t.entries.length

/-- The texts that have no number are those that were not seen. -/
theorem get?_eq_none_iff {t : Interned} {s : String} : t.get? s = none ↔ s ∉ t.entries := by
  constructor
  · intro h hs
    obtain ⟨i, hi⟩ := List.mem_iff_getElem?.mp hs
    have hget : t.get? s = some i := (t.numbered s i).mpr hi
    rw [h] at hget
    cases hget
  · intro hs
    cases h : t.get? s with
    | none => rfl
    | some i => exact absurd (List.mem_of_getElem? ((t.numbered s i).mp h)) hs

/-- Texts and numbers say the same when both have one text more. -/
theorem numbered_concat (t : Interned) {s : String} (h : t.get? s = none) (x : String) (i : Nat) :
    (t.index.insert s t.size).get? x = some i ↔ (t.entries ++ [s])[i]? = some x := by
  rw [Table.get?_insert]
  rcases Nat.lt_trichotomy i t.size with hlt | rfl | hgt
  · rw [List.getElem?_append_left hlt]
    split
    · rename_i heq
      subst heq
      have hnew : t.entries[i]? ≠ some s := fun hi =>
        get?_eq_none_iff.mp h (List.mem_of_getElem? hi)
      simp [Nat.ne_of_gt hlt, hnew]
    · exact t.numbered x i
  · have hlast : (t.entries ++ [s])[t.size]? = some s := List.getElem?_concat_length
    have hnone : t.entries[t.size]? = none := List.getElem?_eq_none (Nat.le_refl _)
    rw [hlast]
    split
    · rename_i heq
      simp [heq]
    · rename_i hne
      rw [t.numbered x t.size, hnone]
      simp [hne]
  · have hnone : t.entries[i]? = none := List.getElem?_eq_none (Nat.le_of_lt hgt)
    have hpast : (t.entries ++ [s])[i]? = none := by
      refine List.getElem?_eq_none ?_
      rw [List.length_append]
      exact hgt
    rw [hpast]
    split
    · simp [Nat.ne_of_lt hgt]
    · rw [t.numbered x i, hnone]

/-- The table with a new text, which gets the next number. -/
def push (t : Interned) (s : String) (h : t.get? s = none) : Interned where
  entries := t.entries ++ [s]
  index := t.index.insert s t.size
  numbered := t.numbered_concat h

/-- The number of a text, which is added when it is new. -/
def intern (t : Interned) (s : String) : Interned × Nat :=
  match h : t.get? s with
  | some i => (t, i)
  | none => (t.push s h, t.size)

/-- A text that was seen changes nothing. -/
theorem intern_of_some {t : Interned} {s : String} {i : Nat} (h : t.get? s = some i) :
    t.intern s = (t, i) := by
  unfold intern
  split
  · rename_i j hj
    rw [h] at hj
    cases hj
    rfl
  · rename_i hnone
    rw [h] at hnone
    cases hnone

/-- A new text comes last. -/
theorem intern_of_none {t : Interned} {s : String} (h : t.get? s = none) :
    t.intern s = (t.push s h, t.size) := by
  unfold intern
  split
  · rename_i j hj
    rw [h] at hj
    cases hj
  · rfl

end Interned

end StackCode.CUnit
