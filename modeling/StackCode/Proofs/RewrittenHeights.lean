import Mathlib.Control.Monad.Basic
import StackCode.Proofs.Heights
import StackCode.Proofs.Rewriting

/-!
# Heights of rewritten code

The passes know nothing of blocks: they replace neighbouring instructions, and one replacement may
bring the next one about. The height check follows the blocks. Between the two stands the scan,
which reads code from left to right: a replacement leaves every point before and behind it as it
was, with the blocks that are open there, so that the rest is read as before.

A scan respects the passes when no block literal waits for its call. The height check knows of no
such waiting, and so none of the points that it meets is one of waiting (`Settled`).
-/

namespace StackCode

variable {p q : Point} {around : List Enclosing} {σ τ : Point × List Enclosing} {i : Instruction}
  {code : List Instruction} {n : Nat}

/-- Nothing is asked of an instruction but that no block literal waits for its call. -/
def settled : Discipline := ⟨fun p _ => !p.awaiting, false⟩

theorem stable_settled : settled.Stable where
  settled p i ha _ := by simpa [settled] using ha
  store _ _ _ _ _ ha _ := ha
  constant _ _ _ _ _ _ _ ha _ _ := ha

/-- The point to which the end of an open block leads back. -/
def Enclosing.back : Enclosing → Point
  | yes q | no q _ | test q | round q | method q | block q => q

/-- No block literal waits for its call, here or behind a block that is open. -/
def Settled (σ : Point × List Enclosing) : Prop :=
  σ.1.awaiting = false ∧ ∀ e ∈ σ.2, e.back.awaiting = false

theorem Settled.enter (h : Settled (p, around)) (hq : q.awaiting = false) {e : Enclosing}
    (he : e.back.awaiting = false) : Settled (q, e :: around) :=
  ⟨hq, List.forall_mem_cons.mpr ⟨he, h.2⟩⟩

/-- What a mark leads to: the other half of the block, or what is behind it. -/
theorem settled_of_mark (h : Settled (p, around)) (hm : i.op.terminator?.isSome)
    (hstep : scanStep anywhere (p, around) i = some τ) : Settled τ := by
  cases around with
  | nil =>
    rw [scanStep_mark_nil hm] at hstep
    cases hstep
  | cons e around =>
    obtain ⟨he, hrest⟩ := List.forall_mem_cons.mp h.2
    have hback : Settled (p, around) := ⟨h.1, hrest⟩
    cases e with
    | yes q =>
      obtain ⟨-, rfl⟩ := scanStep_mark_yes hm hstep
      exact hback.enter he he
    | no q k =>
      obtain ⟨-, -, rfl⟩ := scanStep_mark_no hm hstep
      exact ⟨rfl, hrest⟩
    | test q =>
      obtain ⟨-, -, rfl⟩ := scanStep_mark_test hm hstep
      exact hback.enter rfl he
    | round q =>
      obtain ⟨-, -, rfl⟩ := scanStep_mark_round hm hstep
      exact ⟨rfl, hrest⟩
    | method q =>
      obtain ⟨-, -, rfl⟩ := scanStep_mark_method hm hstep
      exact ⟨rfl, hrest⟩
    | block q =>
      obtain ⟨-, -, rfl⟩ := scanStep_mark_block hm hstep
      exact ⟨rfl, hrest⟩

/-- **One instruction leaves no block literal waiting.** -/
theorem settled_of_scanStep (h : Settled (p, around))
    (hstep : scanStep anywhere (p, around) i = some τ) : Settled τ := by
  by_cases hm : i.op.terminator?.isSome
  · exact settled_of_mark h hm hstep
  · cases he : i.op.effect? with
    | some e =>
      obtain ⟨taken, left⟩ := e
      obtain ⟨-, rfl⟩ := scanStep_plain_eq_some he hstep
      exact ⟨rfl, h.2⟩
    | none =>
      rcases scanStep_open he (by simpa using hm) hstep with
        ⟨-, -, rfl⟩ | ⟨-, rfl⟩ | ⟨name, s, -, rfl⟩ | ⟨s, -, rfl⟩
      · exact h.enter rfl rfl
      · exact h.enter rfl h.1
      · exact h.enter rfl h.1
      · exact h.enter rfl h.1

/-- **Code leaves no block literal waiting**, so that both disciplines read it alike. -/
theorem scan_settled (hσ : Settled σ) (h : scan anywhere σ code = some τ) :
    scan settled σ code = some τ := by
  induction code generalizing σ with
  | nil => exact h
  | cons i rest ih =>
    obtain ⟨p, around⟩ := σ
    obtain ⟨ρ, hstep, hrest⟩ := scan_cons_eq_some h
    have hcalm : p.awaiting = false := hσ.1
    have hstep' : scanStep settled (p, around) i = some ρ :=
      scanStep_of_admits (d := anywhere) rfl (by simp [settled, hcalm]) hstep
    rw [scan_cons, hstep']
    exact ih (settled_of_scanStep hσ hstep) hrest

/-- Accepted code is read to its end, with no block left open. -/
theorem scan_of_checkHeights (h : checkHeights code n = .ok ()) :
    ∃ q, scan settled (.start .top .root, []) code = some (q, []) ∧ q.height = n := by
  obtain ⟨q, hq, hheight⟩ := nested_of_checkHeights (p := .start .top .root) h rfl
  exact ⟨q, scan_settled ⟨rfl, by simp⟩ (scan_of_nested hq []), hheight⟩

theorem checkHeights_of_scan (h : scan settled (.start .top .root, []) code = some (q, [])) :
    checkHeights code q.height = .ok () :=
  (nested_of_scan h).checkHeights rfl

/-- **Rewriting keeps accepted code accepted**, with the same height in the end. -/
theorem rewriting_keeps_checked_heights (h : checkHeights code n = .ok ()) :
    checkHeights (foldConstants code) n = .ok () ∧ checkHeights (dropUnused code) n = .ok () := by
  obtain ⟨q, hscan, rfl⟩ := scan_of_checkHeights h
  exact ⟨checkHeights_of_scan (scan_foldConstants stable_settled hscan),
    checkHeights_of_scan (scan_dropUnused stable_settled hscan)⟩

/-- The condition folds to a constant in two steps. In the first branch a copy, a constant and then
the constant before it are dropped again, in the second one a copy that outlives its store. -/
def foldedCondition : List Instruction :=
  [.pushInt 2, .pushInt 3, .send "+" 1 true false, .pushInt 20, .send "<" 1 true false, .ifTrue,
    .pushNil, .pushNil, .dup, .pop, .pop, .orElse, .pushInt 1, .dup, .setGlobal "g", .pop, .pushNil,
    .endBlock .cond].map (⟨·, .root⟩)

theorem foldedCondition_keeps_checked_heights :
    checkHeights foldedCondition 1 = .ok () ∧
    (foldConstants foldedCondition).length = 14 ∧ (dropUnused foldedCondition).length = 12 ∧
    checkHeights (foldConstants foldedCondition) 1 = .ok () ∧
    checkHeights (dropUnused foldedCondition) 1 = .ok () := by
  have hchecked : checkHeights foldedCondition 1 = .ok () := by decide +kernel
  exact ⟨hchecked, by decide +kernel, by decide +kernel, rewriting_keeps_checked_heights hchecked⟩

end StackCode
