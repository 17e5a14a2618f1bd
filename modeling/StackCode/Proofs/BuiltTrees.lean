import Mathlib.Data.List.Nodup
import StackCode.Proofs.ScopeTree

/-!
# Trees that are built step by step

A tree that starts with the top level only, and in which scopes are opened and names declared where
scopes exist, is valid, and stays so (`Built`). The edits leave a trace in it: the variables of a
scope are the names that were declared for it, in it or in scopes that hoist to it, numbered in the
order in which each of them came first (`Built.lists`).

Main result: **`built_tree_keeps_invariants`**.
-/

namespace StackCode

/-! ## Names in a table and in a list -/

theorem Table.get?_eq_none_iff {α : Type} {t : Table α} {name : String} :
    t.get? name = none ↔ name ∉ t.entries.map Prod.fst := by
  constructor
  · intro h hmem
    obtain ⟨⟨other, value⟩, he, rfl⟩ := List.mem_map.mp hmem
    have hsome : t.get? other = some value := (findEntry_eq_some_iff t.distinct).mpr he
    rw [h] at hsome
    cases hsome
  · intro h
    cases hget : t.get? name with
    | none => rfl
    | some value =>
      have he := (findEntry_eq_some_iff t.distinct).mp hget
      exact absurd (List.mem_map.mpr ⟨_, he, rfl⟩) h

/-- Variables that are numbered in their order are listed in their order. -/
theorem Scope.slotNames_of_slots {scope : Scope}
    (h : scope.vars.entries.map (·.2.toNat) = List.range scope.vars.size) :
    scope.slotNames = scope.vars.entries.map Prod.fst := by
  have hsorted : scope.vars.entries.Pairwise fun a b => decide (a.2 ≤ b.2) = true := by
    have hrange : (scope.vars.entries.map (·.2.toNat)).Pairwise (· < ·) := by
      rw [h]
      exact List.pairwise_lt_range
    rw [List.pairwise_map] at hrange
    refine hrange.imp fun hlt => ?_
    rw [decide_eq_true_eq, UInt64.le_iff_toNat_le]
    exact Nat.le_of_lt hlt
  unfold Scope.slotNames
  rw [List.mergeSort_of_pairwise hsorted]

/-- One more element counts if it is new. -/
theorem eraseDups_concat (l : List String) (a : String) :
    (l ++ [a]).eraseDups = if a ∈ l.eraseDups then l.eraseDups else l.eraseDups ++ [a] := by
  rw [List.eraseDups_append]
  by_cases h : a ∈ l
  · simp [h, List.removeAll]
  · simp [h, List.removeAll, List.eraseDups_cons]

namespace ScopeTree

variable {t : ScopeTree} {s r : ScopeId} {scope : Scope} {name : String}

/-! ## What a declaration does -/

/-- **A declaration gives the owner the name, unless it has it, and changes nothing else.** -/
theorem declare?_of_hoists (ht : t.Sound) (hr : Hoists t s r) (hs : t.get? r = some scope)
    (name : String) : ∃ vars k, t.declare? s name = some (t.declare s name, r, k) ∧
      vars.get? name = some k ∧
      (vars.entries.map Prod.fst = if name ∈ scope.vars.entries.map Prod.fst
        then scope.vars.entries.map Prod.fst else scope.vars.entries.map Prod.fst ++ [name]) ∧
      ∀ i, (t.declare s name).scopes[i]? =
        if i = r.index then some { scope with vars } else t.scopes[i]? := by
  have htarget := hr.target ht
  cases hk : scope.vars.get? name with
  | some k =>
    have hmem : name ∈ scope.vars.entries.map Prod.fst := by
      by_contra hnot
      rw [Table.get?_eq_none_iff.mpr hnot] at hk
      cases hk
    rw [declare_eq_self htarget hs hk]
    refine ⟨scope.vars, k, by simp [declare?, htarget, hs, hk], hk, (if_pos hmem).symm, fun i => ?_⟩
    by_cases hi : i = r.index
    · rw [if_pos hi, hi]
      exact hs
    · rw [if_neg hi]
  | none =>
    have hlt : r.index < t.scopes.size := index_lt_size hs
    rw [declare_eq_insert htarget hs hk]
    refine ⟨scope.vars.insert name scope.vars.size.toUInt64, scope.vars.size.toUInt64, ?_, ?_, ?_,
      fun i => ?_⟩
    · simp [declare?, htarget, hs, hk]
    · rw [Table.get?_insert, if_pos rfl]
    · rw [if_neg (Table.get?_eq_none_iff.mp hk), Table.entries_insert_of_none hk, List.map_append]
      rfl
    · by_cases hi : i = r.index
      · simp [hi, hlt]
      · simp [hi, Ne.symm hi]

/-! ## Edits -/

/-- A step in which a tree is built. -/
inductive Edit where
  /-- Opens a scope. -/
  | push (outer : ScopeId) (kind : ScopeKind)
  /-- Declares a name. -/
  | declare (s : ScopeId) (name : String)
deriving DecidableEq, Repr

/-- The scope in which the edit is made. -/
def Edit.place : Edit → ScopeId
  | push outer _ => outer
  | declare s _ => s

/-- The tree after an edit. -/
def edited (t : ScopeTree) : Edit → ScopeTree
  | .push outer kind => (t.push outer kind).1
  | .declare s name => t.declare s name

/-- The edits, each made in a scope that existed then, lead from the top level alone to the tree. -/
inductive Built : List Edit → ScopeTree → Prop
  | start : Built [] initial
  | step {edits : List Edit} {t : ScopeTree} (e : Edit) (h : Built edits t)
      (hplace : t.contains e.place = true) : Built (edits ++ [e]) (t.edited e)

/-- The name that the edit declares for the scope at place `i` of the tree. -/
def Edit.nameFor? (t : ScopeTree) (i : Nat) : Edit → Option String
  | push .. => none
  | declare s name => if (t.hoistTarget? s).any (·.index = i) then some name else none

/-- The names that were declared for the scope at place `i`, one after another. -/
def declaredFor (t : ScopeTree) (edits : List Edit) (i : Nat) : List String :=
  edits.filterMap (Edit.nameFor? t i)

variable {t' : ScopeTree} {edits : List Edit} {e : Edit} {i : Nat}

theorem extends_edited (t : ScopeTree) (e : Edit) : t.Extends (t.edited e) := by
  cases e with
  | push outer kind => exact extends_push t outer kind
  | declare s name => exact extends_declare t s name

theorem Extends.contains (h : t.Extends t') (hs : t.contains s = true) : t'.contains s = true := by
  have hle := h.size_le
  simp only [ScopeTree.contains, decide_eq_true_eq] at hs ⊢
  omega

/-! ## What edits keep -/

theorem Built.grows (h : Built edits t) : ∃ n, ScopeTree.initial.Grows n t := by
  induction h with
  | start => exact ⟨0, .refl⟩
  | step e _ hplace ih =>
    obtain ⟨n, hn⟩ := ih
    cases e with
    | push outer kind => exact ⟨n + 1, .push outer kind hn (of_decide_eq_true hplace)⟩
    | declare s name => exact ⟨n, .declare s name hn⟩

theorem Built.proper (h : Built edits t) : t.Proper := by
  obtain ⟨n, hn⟩ := h.grows
  exact hn.proper proper_initial

theorem Built.numbered (h : Built edits t) : t.Numbered := by
  obtain ⟨n, hn⟩ := h.grows
  exact hn.numbered numbered_initial

/-- The places of all edits are in the tree. -/
theorem Built.contains_place (h : Built edits t) : ∀ e ∈ edits, t.contains e.place = true := by
  induction h with
  | start => simp
  | step e _ hplace ih =>
    intro e' he'
    rcases List.mem_append.mp he' with he' | he'
    · exact (extends_edited _ e).contains (ih e' he')
    · rw [List.mem_singleton.mp he']
      exact (extends_edited _ e).contains hplace

theorem Proper.exists_hoists_of_contains (ht : t.Proper) (hs : t.contains s = true) :
    ∃ r, Hoists t s r :=
  ht.exists_hoists (s.index + 1) s (by omega) (by simpa [contains] using hs)

/-- What was declared in a scope goes on to belong to the same owner. -/
theorem Extends.hoistTarget? (ht : t.Proper) (ht' : t'.Proper) (h : t.Extends t')
    (hs : t.contains s = true) : t'.hoistTarget? s = t.hoistTarget? s := by
  obtain ⟨r, hr⟩ := ht.exists_hoists_of_contains hs
  rw [hr.target ht.toSound, (hr.extends h).target ht'.toSound]

/-- Later edits do not change for which scope an earlier name was declared. -/
theorem Extends.declaredFor (ht : t.Proper) (ht' : t'.Proper) (h : t.Extends t')
    (hplaces : ∀ e ∈ edits, t.contains e.place = true) (i : Nat) :
    t'.declaredFor edits i = t.declaredFor edits i := by
  refine List.filterMap_congr fun e he => ?_
  cases e with
  | push => rfl
  | declare s name =>
    have hs : t.contains s = true := hplaces _ he
    simp only [Edit.nameFor?, h.hoistTarget? ht ht' hs]

/-- A scope that owns nothing has nothing declared for it. -/
theorem Proper.declaredFor_eq_nil (ht : t.Proper)
    (hplaces : ∀ e ∈ edits, t.contains e.place = true)
    (hno : ∀ s r, Hoists t s r → r.index ≠ i) : t.declaredFor edits i = [] := by
  refine List.filterMap_eq_nil_iff.mpr fun e he => ?_
  cases e with
  | push => rfl
  | declare s name =>
    have hs : t.contains s = true := hplaces _ he
    obtain ⟨r, hr⟩ := ht.exists_hoists_of_contains hs
    simp [Edit.nameFor?, hr.target ht.toSound, hno s r hr]

theorem declaredFor_concat (t : ScopeTree) (edits : List Edit) (e : Edit) (i : Nat) :
    t.declaredFor (edits ++ [e]) i = t.declaredFor edits i ++ (e.nameFor? t i).toList := by
  unfold declaredFor
  rw [List.filterMap_append]
  cases h : e.nameFor? t i <;> simp [h]

/-- The variables of each scope are the names declared for it, in the order in which they came
first. -/
def Lists (edits : List Edit) (t : ScopeTree) : Prop :=
  ∀ (i : Nat) (scope : Scope), t.scopes[i]? = some scope →
    scope.vars.entries.map Prod.fst = (t.declaredFor edits i).eraseDups

theorem lists_push (h : Built edits t) (hl : Lists edits t) {outer : ScopeId} (kind : ScopeKind)
    (ho : t.contains outer = true) : Lists (edits ++ [.push outer kind]) (t.push outer kind).1 := by
  have ht' : (t.push outer kind).1.Proper :=
    proper_push h.proper (by simpa [contains] using ho)
  intro i scope hi
  rw [declaredFor_concat, (extends_push t outer kind).declaredFor h.proper ht' h.contains_place]
  simp only [Edit.nameFor?, Option.toList_none, List.append_nil]
  rcases getElem?_push hi with hold | ⟨rfl, rfl⟩
  · exact hl i scope hold
  · -- nothing can have been declared for a scope that was not there
    have hno : ∀ s r, Hoists t s r → r.index ≠ t.size := by
      intro s r hr
      obtain ⟨owner, howner, -⟩ := hr.owner
      exact Nat.ne_of_lt (index_lt_size howner)
    rw [h.proper.declaredFor_eq_nil h.contains_place hno, opened_vars]
    rfl

/-- A name joins the variables of its scope, unless it is among them. -/
theorem lists_declare (h : Built edits t) (hl : Lists edits t) {s : ScopeId} (name : String)
    (hs : t.contains s = true) : Lists (edits ++ [.declare s name]) (t.declare s name) := by
  obtain ⟨r, hr⟩ := h.proper.exists_hoists_of_contains hs
  obtain ⟨owner, howner, -⟩ := hr.owner
  obtain ⟨vars, k, -, -, hnames, hscopes⟩ := declare?_of_hoists h.proper.toSound hr howner name
  have ht' : (t.declare s name).Proper := proper_declare h.proper
  have htarget : (t.declare s name).hoistTarget? s = some r :=
    (hr.extends (extends_declare t s name)).target ht'.toSound
  intro i scope hi
  rw [declaredFor_concat, (extends_declare t s name).declaredFor h.proper ht' h.contains_place]
  rw [hscopes] at hi
  by_cases heq : i = r.index
  · rw [if_pos heq] at hi
    cases hi
    have hold : owner.vars.entries.map Prod.fst = (t.declaredFor edits i).eraseDups :=
      hl i owner (heq ▸ howner)
    have hname : Edit.nameFor? (t.declare s name) i (.declare s name) = some name := by
      simp [Edit.nameFor?, htarget, heq]
    rw [hname, Option.toList_some, eraseDups_concat, ← hold]
    exact hnames
  · rw [if_neg heq] at hi
    have hname : Edit.nameFor? (t.declare s name) i (.declare s name) = none := by
      simp [Edit.nameFor?, htarget, Ne.symm heq]
    rw [hname, Option.toList_none, List.append_nil]
    exact hl i scope hi

/-- **A built tree lists what was declared.** -/
theorem Built.lists (h : Built edits t) : Lists edits t := by
  induction h with
  | start =>
    intro i scope hi
    cases i with
    | zero =>
      simp [ScopeTree.initial] at hi
      subst hi
      rfl
    | succ i => simp [ScopeTree.initial] at hi
  | step e h hplace ih =>
    cases e with
    | push outer kind => exact lists_push h ih kind hplace
    | declare s name => exact lists_declare h ih name hplace

/-- A scope that hoists has no variables. -/
theorem Built.vars_of_hoist (h : Built edits t) (hi : t.scopes[i]? = some scope)
    (hh : scope.hoist = true) : scope.vars = .empty := by
  have hno : ∀ s r, Hoists t s r → r.index ≠ i := by
    rintro s r hr rfl
    obtain ⟨owner, howner, hown⟩ := hr.owner
    obtain rfl := Option.some.inj (hi.symm.trans howner)
    rw [hh] at hown
    cases hown
  have hnames := h.lists i scope hi
  rw [h.proper.declaredFor_eq_nil h.contains_place hno, List.eraseDups_nil,
    List.map_eq_nil_iff] at hnames
  cases hv : scope.vars with
  | mk entries distinct =>
    rw [hv] at hnames
    obtain rfl : entries = [] := hnames
    rfl

/-! ## Slots -/

/-- The slots of a numbered scope, as long as they can be counted. -/
theorem Numbered.slots (ht : t.Numbered) (hi : t.scopes[i]? = some scope)
    (hsmall : scope.vars.size ≤ 2 ^ 64) :
    scope.vars.entries.map (·.2.toNat) = List.range scope.vars.size := by
  have hslots : ∀ n ∈ List.range scope.vars.size, n.toUInt64.toNat = n := by
    intro n hn
    rw [List.mem_range] at hn
    exact UInt64.toNat_ofNat_of_lt' (Nat.lt_of_lt_of_le hn hsmall)
  calc scope.vars.entries.map (·.2.toNat)
      = (scope.vars.entries.map Prod.snd).map UInt64.toNat := by rw [List.map_map]; rfl
    _ = (List.range scope.vars.size).map fun n => n.toUInt64.toNat := by
        rw [ht i scope hi, List.map_map]; rfl
    _ = List.range scope.vars.size := List.map_congr_left hslots |>.trans (List.map_id _)

/-! ## Main result -/

/-- **Trees that are built keep their invariants.** Such a tree is valid. The `n` variables of a
scope have the slots below `n`, each of them once, and are listed in the order in which their names
were first declared; a scope that hoists has none. One more edit changes no slot that was given, and
no flag or outer link. A name that is declared once more is found at once: in the scope, and with
the slot, that the declaration gives, and without leaving a block.

A scope has no more variables than a word can count, which its slots need. -/
theorem built_tree_keeps_invariants (h : Built edits t) :
    t.validate = .ok () ∧
    (∀ i scope, t.scopes[i]? = some scope →
      (scope.vars.size ≤ 2 ^ 64 →
        (scope.vars.entries.map (·.2.toNat)).Perm (List.range scope.vars.size) ∧
        scope.slotNames = (t.declaredFor edits i).eraseDups) ∧
      (scope.hoist = true → scope.vars = .empty)) ∧
    (∀ e, t.Extends (t.edited e)) ∧
    ∀ s name, t.contains s = true → ∃ o k, t.declare? s name = some (t.declare s name, o, k) ∧
      ∀ localOnly, (t.declare s name).resolve? s name localOnly = some (.ok ⟨o, 0, k⟩) := by
  refine ⟨validate_eq_ok_iff.mpr h.proper.toSound, fun i scope hi => ⟨fun hsmall => ?_, ?_⟩,
    extends_edited t, fun s name hs => ?_⟩
  · have hslots := h.numbered.slots hi hsmall
    rw [hslots, Scope.slotNames_of_slots hslots]
    exact ⟨.refl _, h.lists i scope hi⟩
  · exact h.vars_of_hoist hi
  · obtain ⟨r, hr⟩ := h.proper.exists_hoists_of_contains hs
    obtain ⟨owner, howner, -⟩ := hr.owner
    obtain ⟨vars, k, hdeclare, hk, -, hscopes⟩ :=
      declare?_of_hoists h.proper.toSound hr howner name
    refine ⟨r, k, hdeclare, fun localOnly => ?_⟩
    have hnow : (t.declare s name).get? r = some { owner with vars } := by
      unfold ScopeTree.get?
      rw [hscopes, if_pos rfl]
    exact (resolve?_eq_ok_iff (proper_declare h.proper).toSound).mpr
      ((hr.extends (extends_declare t s name)).binds hnow hk)

/-- A branch of the top level that declares `b` before the top level declares `a`, a block inside
the branch, and a second declaration of `b` from the branch. -/
def branchEdits : List Edit := [.push .root .hoisted, .declare ⟨1⟩ "b", .declare .root "a",
  .push ⟨1⟩ .block, .declare ⟨2⟩ "b", .declare ⟨1⟩ "b"]

/-- The tree after the edits. -/
def branchTree : ScopeTree := branchEdits.foldl edited .initial

theorem built_branchTree : Built branchEdits branchTree := by
  have h₁ : Built _ _ := .step (.push .root .hoisted) .start (by decide +kernel)
  have h₂ : Built _ _ := .step (.declare ⟨1⟩ "b") h₁ (by decide +kernel)
  have h₃ : Built _ _ := .step (.declare .root "a") h₂ (by decide +kernel)
  have h₄ : Built _ _ := .step (.push ⟨1⟩ .block) h₃ (by decide +kernel)
  have h₅ : Built _ _ := .step (.declare ⟨2⟩ "b") h₄ (by decide +kernel)
  exact .step (.declare ⟨1⟩ "b") h₅ (by decide +kernel)

theorem branchTree_keeps_invariants :
    Built branchEdits branchTree ∧ branchTree.validate = .ok () ∧
    (∃ scope : Scope, branchTree.scopes[0]? = some scope ∧ scope.vars.size ≤ 2 ^ 64 ∧
      scope.slotNames = ["b", "a"]) ∧
    branchTree.contains ⟨1⟩ = true ∧
    ∃ o k, branchTree.declare? ⟨1⟩ "c" = some (branchTree.declare ⟨1⟩ "c", o, k) ∧
      ∀ localOnly, (branchTree.declare ⟨1⟩ "c").resolve? ⟨1⟩ "c" localOnly =
        some (.ok ⟨o, 0, k⟩) := by
  obtain ⟨hvalid, hscopes, -, hfound⟩ := built_tree_keeps_invariants built_branchTree
  have hplace : branchTree.contains ⟨1⟩ = true := by decide +kernel
  have hnames : (branchTree.declaredFor branchEdits 0).eraseDups = ["b", "a"] := by decide +kernel
  have htop : branchTree.scopes[0]? = some { vars := .ofList [("b", 0), ("a", 1)] } := by
    decide +kernel
  have hsmall : (Table.ofList [("b", (0 : UInt64)), ("a", 1)]).size ≤ 2 ^ 64 := by decide +kernel
  refine ⟨built_branchTree, hvalid, ⟨_, htop, hsmall, ?_⟩, hplace, hfound ⟨1⟩ "c" hplace⟩
  rw [((hscopes 0 _ htop).1 hsmall).2, hnames]

end ScopeTree

end StackCode
