import StackCode.Value

/-!
# Integer operators

The operators that integers answer. Sums, differences and products wrap to 64 bits; division rounds
down and the remainder has the sign of the divisor.
-/

namespace StackCode

/-- An operator on two integers. -/
inductive IntOp where
  | add | sub | mul | div | mod | lt | le | gt | ge | eq | ne
deriving DecidableEq, Repr

namespace IntOp

/-- The operator with this name. -/
def ofName? : String → Option IntOp
  | "+" => some add
  | "-" => some sub
  | "*" => some mul
  | "/" => some div
  | "%" => some mod
  | "<" => some lt
  | "<=" => some le
  | ">" => some gt
  | ">=" => some ge
  | "==" => some eq
  | "!=" => some ne
  | _ => none

/-- The quotient rounded down, for a divisor other than zero. -/
def floorDiv (a b : Int64) : Int64 :=
  let q := a / b
  if a % b ≠ 0 ∧ (a < 0 ↔ ¬ b < 0) then q - 1 else q

/-- The remainder with the sign of the divisor, for a divisor other than zero. -/
def floorMod (a b : Int64) : Int64 :=
  let r := a % b
  if r ≠ 0 ∧ (r < 0 ↔ ¬ b < 0) then r + b else r

/-- The value of `a op b`; none when the operation is a division by zero. -/
def eval? (op : IntOp) (a b : Int64) : Option Value :=
  match op with
  | add => some (.int (a + b))
  | sub => some (.int (a - b))
  | mul => some (.int (a * b))
  | div => if b = 0 then none else some (.int (floorDiv a b))
  | mod => if b = 0 then none else some (.int (floorMod a b))
  | lt => some (.bool (a < b))
  | le => some (.bool (a ≤ b))
  | gt => some (.bool (b < a))
  | ge => some (.bool (b ≤ a))
  | eq => some (.bool (a = b))
  | ne => some (.bool (a ≠ b))

/-- Whether the result is a number, so that the operand is one that could be converted. -/
def isArithmetic : IntOp → Bool
  | add | sub | mul | div | mod => true
  | _ => false

/-- Whether the operator compares sizes. -/
def isComparison : IntOp → Bool
  | lt | le | gt | ge => true
  | _ => false

end IntOp

/-- The value of `a message b` for two integers; none when the message is no operator on integers or
the operation is a division by zero. -/
def foldInts? (message : String) (a b : Int64) : Option Value := do
  let op ← IntOp.ofName? message
  op.eval? a b

end StackCode
