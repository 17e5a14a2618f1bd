import Mathlib.Data.List.Induction
import StackCode.Proofs.BuiltTrees
import StackCode.Proofs.Generation

/-!
# Numbers of texts

Texts are numbered in the order in which they first come. A text that comes again gets the number
that it has, and nothing changes; one that is new comes last. So the numbers that were given stay
right, whatever comes after them.

Main result: **`interned_texts_keep_numbers`**, for every sequence of texts.
-/

namespace StackCode.CUnit.Interned

/-! ## One text after another -/

/-- Numbers texts one after another: the table in the end, and the number that each text got. -/
def internAll (t : Interned) : List String → Interned × List Nat
  | [] => (t, [])
  | s :: rest =>
    let last := (t.intern s).1.internAll rest
    (last.1, (t.intern s).2 :: last.2)

/-- The table of texts that come one after another. -/
def ofTexts (texts : List String) : Interned := (internAll {} texts).1

theorem internAll_append (t : Interned) (texts more : List String) :
    (t.internAll (texts ++ more)).1 = ((t.internAll texts).1.internAll more).1 := by
  induction texts generalizing t with
  | nil => rfl
  | cons s rest ih => exact ih (t.intern s).1

theorem ofTexts_append (texts more : List String) :
    ofTexts (texts ++ more) = ((ofTexts texts).internAll more).1 :=
  internAll_append {} texts more

theorem ofTexts_concat (texts : List String) (s : String) :
    ofTexts (texts ++ [s]) = ((ofTexts texts).intern s).1 :=
  ofTexts_append texts [s]

/-! ## What stays -/

theorem isPrefix_internAll (t : Interned) (texts : List String) :
    t.entries <+: (t.internAll texts).1.entries := by
  induction texts generalizing t with
  | nil => exact List.prefix_refl _
  | cons s rest ih => exact (isPrefix_intern t s).trans (ih (t.intern s).1)

/-- **A text keeps its number.** -/
theorem get?_internAll {t : Interned} {s : String} {i : Nat} (h : t.get? s = some i)
    (more : List String) : (t.internAll more).1.get? s = some i := by
  have hplace : t.entries[i]? = some s := (t.numbered s i).mp h
  exact ((t.internAll more).1.numbered s i).mpr
    (Draft.getElem?_of_isPrefix (isPrefix_internAll t more) hplace)

/-- **Each text got the number of the place where it stands in the end.** -/
theorem getElem?_internAll (t : Interned) (texts : List String) :
    (t.internAll texts).2.map (fun i => (t.internAll texts).1.entries[i]?) = texts.map some := by
  induction texts generalizing t with
  | nil => rfl
  | cons s rest ih =>
    -- The place of the first text was right when it came, and what comes later keeps it.
    have hfirst : ((t.intern s).1.internAll rest).1.entries[(t.intern s).2]? = some s :=
      Draft.getElem?_of_isPrefix (isPrefix_internAll (t.intern s).1 rest) (getElem?_intern t s)
    rw [List.map_cons, ← ih (t.intern s).1, ← hfirst]
    rfl

/-! ## Order and repetition -/

/-- A text is put at the end if it is new. -/
theorem entries_intern_eq (t : Interned) (s : String) :
    (t.intern s).1.entries = if s ∈ t.entries then t.entries else t.entries ++ [s] := by
  cases h : t.get? s with
  | some i =>
    rw [intern_of_some h, if_pos (List.mem_of_getElem? ((t.numbered s i).mp h))]
  | none =>
    rw [intern_of_none h, if_neg (get?_eq_none_iff.mp h)]
    rfl

/-- **Texts stand in the order in which each of them came first.** -/
theorem entries_ofTexts (texts : List String) : (ofTexts texts).entries = texts.eraseDups := by
  -- From the end: the last text is compared with those that stand there already.
  induction texts using List.reverseRecOn with
  | nil => rfl
  | append_singleton texts s ih =>
    rw [ofTexts_concat, entries_intern_eq, ih, eraseDups_concat]

theorem nodup_ofTexts (texts : List String) : (ofTexts texts).entries.Nodup := by
  induction texts using List.reverseRecOn with
  | nil => exact List.nodup_nil
  | append_singleton texts s ih =>
    rw [ofTexts_concat]
    exact nodup_intern ih s

theorem mem_ofTexts {texts : List String} {s : String} :
    s ∈ (ofTexts texts).entries ↔ s ∈ texts := by
  rw [entries_ofTexts, List.mem_eraseDups]

theorem get?_ofTexts_eq_none {texts : List String} {s : String} (h : s ∉ texts) :
    (ofTexts texts).get? s = none :=
  get?_eq_none_iff.mpr (mt mem_ofTexts.mp h)

theorem exists_get?_ofTexts {texts : List String} {s : String} (h : s ∈ texts) :
    ∃ i, (ofTexts texts).get? s = some i := by
  obtain ⟨i, hi⟩ := List.mem_iff_getElem?.mp (mem_ofTexts.mpr h)
  exact ⟨i, ((ofTexts texts).numbered s i).mpr hi⟩

/-- **Texts and numbers belong to each other, and numbers are only added.** After any sequence of
texts, each of them stands once, in the order in which they first came. Look-up by text and by
number are inverse, and each text got the number of its place. A text that came before gets its
old number and leaves the table as it is; a new one is put at the end. No later text changes the
number of an earlier one. -/
theorem interned_texts_keep_numbers (texts : List String) :
    (ofTexts texts).entries = texts.eraseDups ∧ (ofTexts texts).entries.Nodup ∧
      (∀ s i, (ofTexts texts).get? s = some i ↔ (ofTexts texts).entries[i]? = some s) ∧
      (internAll {} texts).2.map (fun i => (ofTexts texts).entries[i]?) = texts.map some ∧
      (∀ s ∈ texts, ∃ i, (ofTexts texts).get? s = some i ∧
        (ofTexts texts).intern s = (ofTexts texts, i)) ∧
      (∀ s, s ∉ texts → ((ofTexts texts).intern s).2 = (ofTexts texts).size ∧
        ((ofTexts texts).intern s).1.entries = (ofTexts texts).entries ++ [s]) ∧
      ∀ more s i, (ofTexts texts).get? s = some i →
        (ofTexts (texts ++ more)).get? s = some i := by
  refine ⟨entries_ofTexts texts, nodup_ofTexts texts, (ofTexts texts).numbered,
    getElem?_internAll {} texts, ?seen, ?fresh, ?later⟩
  case seen =>
    intro s hs
    obtain ⟨i, hi⟩ := exists_get?_ofTexts hs
    exact ⟨i, hi, intern_of_some hi⟩
  case fresh =>
    intro s hs
    rw [intern_of_none (get?_ofTexts_eq_none hs)]
    exact ⟨rfl, rfl⟩
  case later =>
    intro more s i h
    rw [ofTexts_append]
    exact get?_internAll h more

/-- A text that comes again, one that is new, and one that keeps its number. -/
theorem interned_texts_keep_numbers_repeated :
    (ofTexts ["b", "a", "b"]).entries = ["b", "a"] ∧
      (internAll {} ["b", "a", "b"]).2 = [0, 1, 0] ∧
      (∃ i, (ofTexts ["b", "a", "b"]).get? "b" = some i ∧
        (ofTexts ["b", "a", "b"]).intern "b" = (ofTexts ["b", "a", "b"], i)) ∧
      ((ofTexts ["b", "a", "b"]).intern "c").2 = 2 ∧
      (ofTexts ["b", "a", "b", "c"]).get? "a" = some 1 := by
  obtain ⟨hentries, -, -, -, hseen, hfresh, hlater⟩ :=
    interned_texts_keep_numbers ["b", "a", "b"]
  refine ⟨hentries.trans (by decide), by decide +kernel, hseen "b" (by decide), ?_,
    hlater ["c"] "a" 1 (by decide +kernel)⟩
  exact (hfresh "c" (by decide)).1.trans (by decide +kernel)

end StackCode.CUnit.Interned
