import StackCode.Arith
import StackCode.Code.Op

/-!
# Constant folding

Two integer constants and an operator on them become the result. No method can take the place of an
operator on integers, so nothing is lost; a division by zero is left alone, because it fails when
it runs.

The code kept so far is held with its last instruction first: a new constant may meet the next
operator at once.
-/

namespace StackCode

namespace Fold

/-- The operation that pushes a constant result. -/
def constant? : Value → Option Op
  | .int n => some (.pushInt n)
  | .bool b => some (if b then .pushTrue else .pushFalse)
  | _ => none

/-- The constant that the instruction makes of the two before it. -/
def result? : List Instruction → Instruction → Option Op
  | ⟨.pushInt b, _⟩ :: ⟨.pushInt a, _⟩ :: _, ⟨.send message 1 true false, _⟩ => do
    constant? (← foldInts? message a b)
  | _, _ => none

/-- Takes one more instruction in. -/
def step (kept : List Instruction) (i : Instruction) : List Instruction :=
  match result? kept i with
  | some op => ⟨op, i.scope⟩ :: kept.drop 2
  | none => i :: kept

end Fold

/-- The code with operators on constants replaced by their results. -/
def foldConstants (code : List Instruction) : List Instruction :=
  (code.foldl Fold.step []).reverse

end StackCode
