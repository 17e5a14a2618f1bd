import Mathlib.Logic.Relation
import StackCode.Code.Fold
import StackCode.Code.Peephole
import StackCode.Proofs.Nesting

/-!
# The passes as rewriting

Constant folding and the removal of unused values keep the code read so far with its last
instruction first, and change only the end of it. Seen on the whole code, each change replaces some
neighbouring instructions by others: `Contracts rule`. A pass is a chain of such changes, so that
whatever one change preserves, the pass preserves.

As a first use, a scan does not notice the passes (`scan_foldConstants`, `scan_dropUnused`), for
every discipline that is `Stable`.
-/

namespace StackCode

open Relation (ReflTransGen)

/-! ## Chains of local changes -/

/-- One use of a rule, somewhere in the code. -/
inductive Contracts (rule : List Instruction → List Instruction → Prop) :
    List Instruction → List Instruction → Prop
  | intro {old new : List Instruction} (pre post : List Instruction) (h : rule old new) :
      Contracts rule (pre ++ (old ++ post)) (pre ++ (new ++ post))

variable {rule : List Instruction → List Instruction → Prop}

/-- A change is local: it may be made in front of more code. -/
theorem Contracts.append_right {a b : List Instruction} (h : Contracts rule a b)
    (c : List Instruction) : Contracts rule (a ++ c) (b ++ c) := by
  obtain ⟨pre, post, h⟩ := h
  rw [List.append_assoc, List.append_assoc, List.append_assoc, List.append_assoc]
  exact .intro pre (post ++ c) h

/-- A pass that takes in one instruction after another and applies at most one rule each time. The
code read so far and the code to come make up the whole. -/
theorem rewrites_foldl {step : List Instruction → Instruction → List Instruction}
    (hstep : ∀ kept i, step kept i = i :: kept ∨
      Contracts rule (kept.reverse ++ [i]) (step kept i).reverse) :
    ∀ (code kept : List Instruction),
      ReflTransGen (Contracts rule) (kept.reverse ++ code) (code.foldl step kept).reverse := by
  intro code
  induction code with
  | nil =>
    intro kept
    rw [List.append_nil]
    exact .refl
  | cons i rest ih =>
    intro kept
    have hrest := ih (step kept i)
    rw [List.foldl_cons, show kept.reverse ++ i :: rest = kept.reverse ++ [i] ++ rest by simp]
    rcases hstep kept i with h | h
    · rw [h] at hrest ⊢
      rwa [List.reverse_cons] at hrest
    · exact .head (h.append_right rest) hrest

/-! ## Removing unused values -/

namespace Op

/-- Whether the operation stores the last operand. -/
def isStore : Op → Bool
  | setLocal .. | setGlobal _ => true
  | _ => false

/-- Whether the operation takes a block from the stack. -/
def takesBlock : Op → Bool
  | send _ _ _ withBlock => withBlock
  | _ => false

end Op

namespace Peephole

/-- What the pass replaces by what. -/
inductive Rule : List Instruction → List Instruction → Prop
  | push {i j : Instruction} (hi : i.op.isPurePush = true) (hj : j.op = .pop) : Rule [i, j] []
  | dup {i j : Instruction} (hi : i.op = .dup) (hj : j.op = .pop) : Rule [i, j] []
  | store {i s j : Instruction} (hi : i.op = .dup) (hs : s.op.isStore = true) (hj : j.op = .pop) :
      Rule [i, s, j] [s]

/-- A store absorbs a pop when a copy of its value was made before it. -/
theorem absorb?_store {last : Instruction} (hs : last.op.isStore = true) (before : Instruction)
    (rest : List Instruction) : absorb? (last :: before :: rest) =
      if before.op = .dup then some (last :: rest) else none := by
  obtain ⟨op, scope⟩ := last
  cases op with
  | setLocal | setGlobal => rfl
  | _ => cases hs

/-- When a pop goes into a store, the copy before the store goes with it. -/
theorem exists_dup_of_absorb? {last : Instruction} {rest kept' : List Instruction}
    (hs : last.op.isStore = true) (h : absorb? (last :: rest) = some kept') :
    ∃ before rest', rest = before :: rest' ∧ before.op = .dup ∧ kept' = last :: rest' := by
  cases rest with
  | nil =>
    obtain ⟨op, scope⟩ := last
    cases op with
    | setLocal | setGlobal => cases h
    | _ => cases hs
  | cons before rest =>
    rw [absorb?_store hs] at h
    split at h
    · rename_i hd
      cases h
      exact ⟨before, rest, rfl, hd, rfl⟩
    · cases h

theorem absorb?_other {last : Instruction} (hpush : last.op.isPurePush ≠ true)
    (hdup : last.op ≠ .dup) (hstore : last.op.isStore ≠ true) (rest : List Instruction) :
    absorb? (last :: rest) = none := by
  obtain ⟨op, scope⟩ := last
  cases op with
  | pushInt | pushString | pushSymbol | pushNil | pushTrue | pushFalse | pushSelf =>
    exact absurd rfl hpush
  | dup => exact absurd rfl hdup
  | setLocal | setGlobal => exact absurd rfl hstore
  | _ => rfl

/-- What can go with a pop: the instruction before it, or a copy before a store. -/
theorem absorb?_eq_some {kept kept' : List Instruction} (h : absorb? kept = some kept') :
    (∃ last, (last.op.isPurePush = true ∨ last.op = .dup) ∧ kept = last :: kept') ∨
    ∃ last before rest, last.op.isStore = true ∧ before.op = .dup ∧
      kept = last :: before :: rest ∧ kept' = last :: rest := by
  cases kept with
  | nil => simp [absorb?] at h
  | cons last rest =>
    by_cases hlast : last.op.isPurePush = true ∨ last.op = .dup
    · have hrest : rest = kept' := by
        rcases hlast with hi | hi <;> simpa [absorb?, hi] using h
      exact Or.inl ⟨last, hlast, by rw [hrest]⟩
    · obtain ⟨hpush, hdup⟩ := not_or.mp hlast
      by_cases hs : last.op.isStore = true
      · obtain ⟨before, rest, rfl, hd, rfl⟩ := exists_dup_of_absorb? hs h
        exact Or.inr ⟨last, before, rest, hs, hd, rfl, rfl⟩
      · rw [absorb?_other hpush hdup hs] at h
        cases h

/-- An absorbed pop is an application of one of the rules. -/
theorem contracts_of_absorb? {kept kept' : List Instruction} {j : Instruction} (hj : j.op = .pop)
    (h : absorb? kept = some kept') : Contracts Rule (kept.reverse ++ [j]) kept'.reverse := by
  rcases absorb?_eq_some h with ⟨last, hlast, rfl⟩ | ⟨last, before, rest, hs, hd, rfl, rfl⟩
  · have hrule : Rule [last, j] [] := by
      rcases hlast with hi | hi
      · exact .push hi hj
      · exact .dup hi hj
    simpa using Contracts.intro kept'.reverse [] hrule
  · simpa using Contracts.intro rest.reverse [] (Rule.store hd hs hj)

theorem step_cases (kept : List Instruction) (i : Instruction) :
    step kept i = i :: kept ∨ Contracts Rule (kept.reverse ++ [i]) (step kept i).reverse := by
  unfold step
  split
  · rename_i hi
    cases h : absorb? kept with
    | none => exact Or.inl rfl
    | some kept' => exact Or.inr (contracts_of_absorb? hi h)
  · exact Or.inl rfl

end Peephole

/-- **The removal of unused values is a chain of its rules.** -/
theorem dropUnused_rewrites (code : List Instruction) :
    ReflTransGen (Contracts Peephole.Rule) code (dropUnused code) :=
  rewrites_foldl Peephole.step_cases code []

/-! ## Folding constants -/

namespace Fold

/-- What the pass replaces by what: the constant stands where the operator stood. -/
inductive Rule : List Instruction → List Instruction → Prop
  | op {a b : Int64} {sa sb s : ScopeId} {message : String} {v : Value} {op : Op}
      (hv : foldInts? message a b = some v) (hop : constant? v = some op) :
      Rule [⟨.pushInt a, sa⟩, ⟨.pushInt b, sb⟩, ⟨.send message 1 true false, s⟩] [⟨op, s⟩]

/-- Only an operator on two constants is folded. -/
theorem result?_eq_some {kept : List Instruction} {i : Instruction} {op : Op}
    (h : result? kept i = some op) :
    ∃ a sa b sb rest message v, kept = ⟨.pushInt b, sb⟩ :: ⟨.pushInt a, sa⟩ :: rest ∧
      i = ⟨.send message 1 true false, i.scope⟩ ∧ foldInts? message a b = some v ∧
      constant? v = some op := by
  unfold result? at h
  split at h
  · rename_i b sb a sa rest message s
    obtain ⟨v, hv, hop⟩ := Option.bind_eq_some_iff.mp h
    exact ⟨a, sa, b, sb, rest, message, v, rfl, rfl, hv, hop⟩
  · cases h

theorem step_cases (kept : List Instruction) (i : Instruction) :
    step kept i = i :: kept ∨ Contracts Rule (kept.reverse ++ [i]) (step kept i).reverse := by
  unfold step
  cases hr : result? kept i with
  | none => exact Or.inl rfl
  | some op =>
    obtain ⟨a, sa, b, sb, rest, message, v, rfl, hi, hv, hop⟩ := result?_eq_some hr
    rw [hi]
    exact Or.inr (by simpa using Contracts.intro rest.reverse [] (Rule.op hv hop))

theorem effect?_constant {v : Value} {op : Op} (h : constant? v = some op) :
    op.effect? = some (0, 1) := by
  unfold constant? at h
  split at h
  · cases h
    rfl
  · rename_i b
    cases b <;> (cases h; rfl)
  · cases h

end Fold

/-- **Constant folding is a chain of its rule.** -/
theorem foldConstants_rewrites (code : List Instruction) :
    ReflTransGen (Contracts Fold.Rule) code (foldConstants code) :=
  rewrites_foldl Fold.step_cases code []

/-! ## Scans of rewritten code -/

/-- A discipline that the passes respect. -/
structure Discipline.Stable (d : Discipline) : Prop where
  /-- Where a block waits for its call, nothing else may stand. -/
  settled : ∀ p i, d.admits p i = true → i.op.takesBlock = false → p.awaiting = false
  /-- A store may stand where the copy before it stood. -/
  store : ∀ p c s, c.op = .dup → s.op.isStore = true → d.admits p c = true →
    d.admits (p.atHeight (p.height + 1)) s = true → d.admits p s = true
  /-- A constant may stand where the first operand stood, in the scope of the operator. -/
  constant : ∀ p a m s v op, a.op.isPurePush = true → d.admits p a = true →
    d.admits (p.atHeight (p.height + 2)) ⟨.send m 1 true false, s⟩ = true →
    Fold.constant? v = some op → d.admits p ⟨op, s⟩ = true

variable {d : Discipline} {σ τ : Point × List Enclosing} {code code' : List Instruction}

/-- What each rule keeps, a chain of changes keeps. -/
theorem scan_rewrites (hrule : ∀ old new, rule old new →
      ∀ σ τ, scan d σ old = some τ → scan d σ new = some τ)
    (hr : ReflTransGen (Contracts rule) code code') (h : scan d σ code = some τ) :
    scan d σ code' = some τ := by
  induction hr with
  | refl => exact h
  | tail _ hc ih =>
    obtain ⟨pre, post, hon⟩ := hc
    obtain ⟨ρ, hpre, hmid⟩ := scan_append_eq_some ih
    obtain ⟨ρ', hold, hpost⟩ := scan_append_eq_some hmid
    exact scan_append_of_eq_some hpre (scan_append_of_eq_some (hrule _ _ hon _ _ hold) hpost)

theorem effect?_of_isPurePush {op : Op} (h : op.isPurePush = true) : op.effect? = some (0, 1) := by
  cases op with
  | pushInt | pushString | pushSymbol | pushNil | pushTrue | pushFalse | pushSelf => rfl
  | _ => cases h

theorem effect?_of_isStore {op : Op} (h : op.isStore = true) : op.effect? = some (1, 0) := by
  cases op with
  | setLocal | setGlobal => rfl
  | _ => cases h

theorem takesBlock_of_isPurePush {op : Op} (h : op.isPurePush = true) :
    op.takesBlock = false := by
  cases op with
  | send => cases h
  | _ => rfl

theorem Point.atHeight_self {p : Point} (h : p.awaiting = false) : p.atHeight p.height = p := by
  cases p
  simp_all [Point.atHeight]

/-- Each rule leaves the height as it was, and what may stand there. -/
theorem scan_peephole_rule (hd : d.Stable) {old new : List Instruction}
    (hr : Peephole.Rule old new) (h : scan d σ old = some τ) : scan d σ new = some τ := by
  obtain ⟨p, around⟩ := σ
  cases hr with
  | @push i j hi hj =>
    obtain ⟨ρ, h₁, h⟩ := scan_cons_eq_some h
    obtain ⟨-, rfl⟩ := scanStep_plain_eq_some (effect?_of_isPurePush hi) h₁
    obtain ⟨ρ, h₂, h⟩ := scan_cons_eq_some h
    obtain ⟨-, rfl⟩ := scanStep_plain_eq_some (by rw [hj]; rfl) h₂
    have hp := hd.settled p i (admits_of_scanStep h₁) (takesBlock_of_isPurePush hi)
    rw [← h]
    simp [Point.atHeight_self hp]
  | @dup i j hi hj =>
    obtain ⟨ρ, h₁, h⟩ := scan_cons_eq_some h
    obtain ⟨hh, rfl⟩ := scanStep_plain_eq_some (by rw [hi]; rfl) h₁
    obtain ⟨ρ, h₂, h⟩ := scan_cons_eq_some h
    obtain ⟨-, rfl⟩ := scanStep_plain_eq_some (by rw [hj]; rfl) h₂
    have hp := hd.settled p i (admits_of_scanStep h₁) (by rw [hi]; rfl)
    rw [← h]
    simp [show p.height - 1 + 2 - 1 = p.height by omega, Point.atHeight_self hp]
  | @store i s j hi hs hj =>
    obtain ⟨ρ, h₁, h⟩ := scan_cons_eq_some h
    obtain ⟨hh, rfl⟩ := scanStep_plain_eq_some (by rw [hi]; rfl) h₁
    obtain ⟨ρ, h₂, h⟩ := scan_cons_eq_some h
    obtain ⟨-, rfl⟩ := scanStep_plain_eq_some (effect?_of_isStore hs) h₂
    obtain ⟨ρ, h₃, h⟩ := scan_cons_eq_some h
    obtain ⟨-, rfl⟩ := scanStep_plain_eq_some (by rw [hj]; rfl) h₃
    have ha := hd.store p i s hi hs (admits_of_scanStep h₁)
      (by rw [← show p.height - 1 + 2 = p.height + 1 by omega]; exact admits_of_scanStep h₂)
    rw [scan_cons, scanStep_plain ha (effect?_of_isStore hs) hh, ← h]
    simp

/-- Two operands and an operator leave one value, as the constant does. -/
theorem scan_fold_rule (hd : d.Stable) {old new : List Instruction} (hr : Fold.Rule old new)
    (h : scan d σ old = some τ) : scan d σ new = some τ := by
  obtain ⟨p, around⟩ := σ
  obtain ⟨hv, hop⟩ := hr
  obtain ⟨ρ, h₁, h⟩ := scan_cons_eq_some h
  obtain ⟨-, rfl⟩ := scanStep_plain_eq_some (show _ = some (0, 1) from rfl) h₁
  obtain ⟨ρ, h₂, h⟩ := scan_cons_eq_some h
  obtain ⟨-, rfl⟩ := scanStep_plain_eq_some (show _ = some (0, 1) from rfl) h₂
  obtain ⟨ρ, h₃, h⟩ := scan_cons_eq_some h
  obtain ⟨-, rfl⟩ := scanStep_plain_eq_some (show _ = some (2, 1) from rfl) h₃
  have ha := hd.constant p _ _ _ _ _ rfl (admits_of_scanStep h₁) (admits_of_scanStep h₃) hop
  rw [scan_cons, scanStep_plain ha (Fold.effect?_constant hop) (Nat.zero_le _), ← h]
  simp

/-- **A scan does not notice constant folding.** -/
theorem scan_foldConstants (hd : d.Stable) (h : scan d σ code = some τ) :
    scan d σ (foldConstants code) = some τ :=
  scan_rewrites (fun _ _ hr _ _ => scan_fold_rule hd hr) (foldConstants_rewrites code) h

/-- **A scan does not notice the removal of unused values.** -/
theorem scan_dropUnused (hd : d.Stable) (h : scan d σ code = some τ) :
    scan d σ (dropUnused code) = some τ :=
  scan_rewrites (fun _ _ hr _ _ => scan_peephole_rule hd hr) (dropUnused_rewrites code) h

end StackCode
