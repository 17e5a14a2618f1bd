import Mathlib.Control.Monad.Basic
import StackCode.Proofs.RewrittenRuns

/-!
# Programs with their constants folded

Constant folding keeps what a program does, whatever its code: a run that ends does so in the same
way after the pass, and malformed code stays malformed.

A folded operator finds its two operands above the base of the call it runs in, because they were
pushed there just before, and it asks no method of the program, because the methods that integers
have come first (`Builtin.call?_of_foldInts?`).
-/

namespace StackCode

/-! ## What the operator does when it runs -/

theorem IntOp.ofName?_eq_eq {message : String} (h : ofName? message = some .eq) :
    message = "==" := by
  unfold ofName? at h
  split at h <;> first | rfl | cases h

theorem IntOp.ofName?_eq_ne {message : String} (h : ofName? message = some .ne) :
    message = "!=" := by
  unfold ofName? at h
  split at h <;> first | rfl | cases h

/-- **An operator that is folded is built in**, and answers what it is replaced by. -/
theorem Builtin.call?_of_foldInts? {message : String} {a b : Int64} {v : Value}
    (h : foldInts? message a b = some v) :
    call? (.int a) message [.int b] = some (.ok v) := by
  obtain ⟨op, hname, hv⟩ := Option.bind_eq_some_iff.mp h
  -- numbers and orders are answered by the integer, equality by every value
  by_cases hop : (op.isArithmetic || op.isComparison) = true
  · have hint : ofInt? a message [.int b] = some (.ok v) := by
      simp only [ofInt?, hname, Option.bind_eq_bind, Option.bind_some, if_pos hop, withOne, hv]
    simp [call?, ofClass?, hint]
  · have hint : ofInt? a message [.int b] = none := by
      simp only [ofInt?, hname, Option.bind_eq_bind, Option.bind_some, if_neg hop]
    cases op with
    | eq =>
      cases IntOp.ofName?_eq_eq hname
      cases hv
      simp [call?, ofClass?, hint, ofAny?, withOne]
    | ne =>
      cases IntOp.ofName?_eq_ne hname
      cases hv
      simp [call?, ofClass?, hint, ofAny?, withOne]
    | _ => exact absurd rfl hop

namespace Machine

variable {cx : Setup} {a b : Int64} {message : String} {v : Value} {scope : ScopeId}
  {rest : List Instruction} {s : State} {below : List Value}

/-- The operator runs the built-in method, whatever methods the program defines. -/
theorem step_foldable_send (run : Segment → Exec Ended) (fuel start : Nat)
    (hv : foldInts? message a b = some v) (hs : s.stack = .int b :: .int a :: below)
    (hbase : s.base ≤ below.length) :
    step cx run fuel ⟨.send message 1 true false, scope⟩ ⟨start + 1, rest⟩ s =
      .ok (none, ⟨start + 1, rest⟩) { s with stack := v :: below } := by
  have hargs : popN 1 start s = .ok [.int b] { s with stack := .int a :: below } :=
    popN_of_stack hs (Nat.le_succ_of_le hbase) rfl start
  have htarget := pop_of_stack (s := { s with stack := .int a :: below }) rfl hbase start
  have hanswer : send cx run (some (.int a)) message [.int b] none start =
      pure (.value v) := by
    simp only [send, Builtin.call?_of_foldInts? hv, pure_bind]
  show EStateM.bind (popN 1 start) _ s = _
  simp only [EStateM.bind, hargs]
  show EStateM.bind (EStateM.map some (pop start)) _ _ = _
  simp only [EStateM.bind, EStateM.map, htarget]
  show EStateM.bind (send cx run (some (.int a)) message [.int b] none start) _ _ = _
  rw [hanswer]
  rfl

theorem performs_push (cx : Setup) (n : Int64) (scope : ScopeId) :
    Performs cx ⟨.pushInt n, scope⟩ fun _ => push (.int n) :=
  fun _ _ _ => rfl

/-- The folded instruction pushes the value that the operator would. -/
theorem performs_constant {op : Op} (h : Fold.constant? v = some op) :
    Performs cx ⟨op, scope⟩ fun _ => push v := by
  unfold Fold.constant? at h
  split at h
  · cases h
    exact fun _ _ _ => rfl
  · rename_i b
    cases h
    cases b <;> exact fun _ _ _ => rfl
  · cases h

section

variable {sa sb : ScopeId}

/-- The window takes three steps to push its result. -/
theorem exec_window (hcx : cx.Unlimited) (hv : foldInts? message a b = some v)
    (hbase : s.base ≤ s.stack.length) (k start : Nat) :
    exec cx (k + 3) ⟨start, ⟨.pushInt a, sa⟩ :: ⟨.pushInt b, sb⟩ ::
        ⟨.send message 1 true false, scope⟩ :: rest⟩ s =
      exec cx k ⟨start + 3, rest⟩ { s with stack := v :: s.stack, steps := s.steps + 3 } := by
  rw [exec_of_performs hcx (performs_push cx a sa)]
  show exec cx (k + 2) _ { s with stack := .int a :: s.stack, steps := s.steps + 1 } = _
  rw [exec_of_performs hcx (performs_push cx b sb)]
  show exec cx (k + 1) _ { s with stack := .int b :: .int a :: s.stack, steps := s.steps + 2 } = _
  show EStateM.bind (tick cx) _ _ = _
  simp only [EStateM.bind, tick_of_unlimited hcx]
  show EStateM.bind (step cx _ _ _ _) _ _ = _
  have hstep : step cx (exec cx k) k ⟨.send message 1 true false, scope⟩ ⟨start + 3, rest⟩
      { s with stack := .int b :: .int a :: s.stack, steps := s.steps + 3 } =
        .ok (none, ⟨start + 3, rest⟩) { s with stack := v :: s.stack, steps := s.steps + 3 } :=
    step_foldable_send (exec cx k) k (start + 2) hv rfl hbase
  simp only [EStateM.bind, hstep]

/-- With less fuel than that, the window stops for want of it. -/
theorem exec_window_short (hcx : cx.Unlimited) {n : Nat} (hn : n < 3) (start : Nat) :
    ∃ t, exec cx n ⟨start, ⟨.pushInt a, sa⟩ :: ⟨.pushInt b, sb⟩ :: rest⟩ s =
      .error .outOfFuel t := by
  match n with
  | 0 => exact ⟨s, rfl⟩
  | 1 =>
    rw [exec_of_performs hcx (performs_push cx a sa)]
    exact ⟨_, rfl⟩
  | 2 =>
    rw [exec_of_performs hcx (performs_push cx a sa)]
    show ∃ t, exec cx 1 _ { s with stack := .int a :: s.stack, steps := s.steps + 1 } = _
    rw [exec_of_performs hcx (performs_push cx b sb)]
    exact ⟨_, rfl⟩

end

/-! ## The rule -/

/-- The rule leaves blocks and their marks alone. -/
theorem plainRule_fold : PlainRule Fold.Rule := by
  intro old new hr i hi
  obtain ⟨-, hop⟩ := hr
  simp only [List.cons_append, List.nil_append, List.mem_cons, List.not_mem_nil, or_false] at hi
  rcases hi with rfl | rfl | rfl | rfl
  · rfl
  · rfl
  · rfl
  · rw [Fold.effect?_constant hop]
    rfl

/-- The folding of constants. It keeps every way in which a run can end. -/
def constants : Rewriting where
  rule := Fold.Rule
  plain := plainRule_fold
  exempt e := e = .outOfFuel
  exempt_fuel := rfl
  exempt_leave he f := by rw [he]; rfl
  exempt_unplaced {e} := by
    cases e with
    | outOfFuel => exact Iff.rfl
    | fault e => cases e <;> exact ⟨nofun, nofun⟩

/-- **The rule of the pass is sound.** -/
theorem sound_constants (hcx : cx.Unlimited) : constants.Sound cx := by
  intro old new hr rest rest' n n' hn hrest calls start start' s s' h
  obtain ⟨hv, hop⟩ := hr
  have hbase : s.base ≤ s.stack.length := h.base_eq_floorOf ▸ h.stacked.grounded
  by_cases hshort : n < 3
  · obtain ⟨t, ht⟩ := exec_window_short hcx hshort start
    exact ht ▸ .exempt rfl
  -- behind the window, the original has two steps less left than what replaces it
  obtain ⟨k, rfl⟩ : ∃ k, n = k + 3 := ⟨n - 3, by omega⟩
  obtain ⟨k', rfl⟩ : ∃ k', n' = k' + 1 := ⟨n' - 1, by omega⟩
  simp only [List.cons_append, List.nil_append]
  rw [exec_window hcx hv hbase, exec_of_performs hcx (performs_constant hop)]
  exact hrest (by omega) (by omega) _ _ { h.pushed _ with }

/-! ## Programs -/

/-- **Constant folding keeps what a program does.** If a run of the program ends, then the program
with its constants folded ends within the same fuel: with the same output, the same exit and
operands, or the same fault up to the indices in it; and it is found malformed exactly when the
program is. -/
theorem foldConstants_preserves_runs (p : Program) (limits : Limits) (room : Option Nat)
    {fuel fuel' : Nat} (hsteps : limits.steps = none) (hstack : limits.stack = none)
    (hfuel : fuel ≤ fuel')
    (hends : (reportWithin fuel limits room p).result ≠ .error .outOfFuel) :
    (reportWithin fuel' limits room { p with code := foldConstants p.code }).result ≠
        .error .outOfFuel ∧
      (reportWithin fuel limits room p).Matches
        (reportWithin fuel' limits room { p with code := foldConstants p.code }) ∧
      ((∃ e, (reportWithin fuel limits room p).result = .error (.fault (.malformed e))) ↔
        ∃ e, (reportWithin fuel' limits room { p with code := foldConstants p.code }).result =
          .error (.fault (.malformed e))) := by
  have hcx : Setup.Unlimited ⟨limits, p.scopes⟩ := ⟨hsteps, hstack⟩
  have hmatch := constants.report_matches_of_chain hcx (sound_constants hcx)
    (foldConstants_rewrites p.code) hfuel room fun e he hout => hends (hout ▸ he)
  refine ⟨fun hout => ?_, hmatch, hmatch.malformed_iff⟩
  obtain ⟨e, he, heq⟩ := hmatch.exists_error hout
  exact hends (constants.exempt_unplaced.mp heq.symm ▸ he)

/-- Prints a product and a sum, then divides by zero if one number is less than another. Two
operators are folded in a chain, one more is folded alone, and the division is left to fail. -/
def printAndDivide : Program where
  code := [.pushInt 2, .pushInt 3, .send "*" 1 true false, .pushInt 1, .send "+" 1 true false,
    .send "puts" 1 false false, .pop,
    .pushInt 1, .pushInt 2, .send "<" 1 true false,
    .ifTrue, .pushInt 7, .pushInt 0, .send "/" 1 true false,
    .orElse, .pushNil,
    .endBlock .cond].map (⟨·, .root⟩)

theorem result_printAndDivide : (reportWithin 40 {} none printAndDivide).result =
    .error (.fault (.raised ⟨.dividedByZero, []⟩)) := by
  decide +kernel

theorem foldConstants_preserves_printAndDivide :
    (foldConstants printAndDivide.code).length + 6 = printAndDivide.code.length ∧
    (reportWithin 40 {} none printAndDivide).result =
      .error (.fault (.raised ⟨.dividedByZero, []⟩)) ∧
    (reportWithin 40 {} none printAndDivide).Matches
      (reportWithin 50 {} none
        { printAndDivide with code := foldConstants printAndDivide.code }) := by
  have hends : (reportWithin 40 {} none printAndDivide).result ≠ .error .outOfFuel := by
    rw [result_printAndDivide]
    nofun
  exact ⟨by decide +kernel, result_printAndDivide,
    (foldConstants_preserves_runs printAndDivide {} none rfl rfl (by decide) hends).2.1⟩

end Machine

end StackCode
