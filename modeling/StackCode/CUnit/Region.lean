import StackCode.Code.Malformed
import StackCode.CUnit.Stmt

/-!
# Regions

While a stretch of code becomes C, its operand stack is a list of operands: what each value will be
called. A region is such a stack and the statements so far. The arms of a conditional start from one
stack and may leave different ones; `merge` brings them together.
-/

namespace StackCode.CUnit

/-- The stack and the statements of a stretch of code, the last one first in both. -/
structure Region where
  stack : List Operand := []
  code : List Stmt := []
deriving Repr, Inhabited

namespace Region

/-- A region that starts with the stack of this one. -/
def fork (r : Region) : Region := { stack := r.stack }

/-- The statements in order. -/
def statements (r : Region) : List Stmt := r.code.reverse

/-- Adds a statement. -/
def emit (r : Region) (s : Stmt) : Region := { r with code := s :: r.code }

/-- Adds lines one level deeper; no lines add no statement. -/
def emitIndented (r : Region) (lines : List String) : Region :=
  if lines.isEmpty then r else r.emit (.indented lines)

/-- Puts an operand on the stack. -/
def push (r : Region) (v : Operand) : Region := { r with stack := v :: r.stack }

/-- Computes a value now, into temp `t`. -/
def memoize (r : Region) (t : Nat) (value : Rhs) : Region :=
  (r.emit (.declare t value)).push (.temp t)

/-- There are too few operands at the instruction. -/
def outOfStack (index : Nat) : Malformed := ⟨index, .outOfStack, some .generator⟩

/-- Takes the last operand. -/
def pop (r : Region) (index : Nat) : Except Malformed (Operand × Region) :=
  match r.stack with
  | v :: rest => .ok (v, { r with stack := rest })
  | [] => .error (outOfStack index)

/-- The last operand. -/
def peek (r : Region) (index : Nat) : Except Malformed Operand :=
  match r.stack with
  | v :: _ => .ok v
  | [] => .error (outOfStack index)

/-- Takes the last `n` operands, in the order in which they were pushed. -/
def popN (r : Region) (n : Nat) (index : Nat) : Except Malformed (List Operand × Region) :=
  if r.stack.length < n then .error (outOfStack index)
  else .ok ((r.stack.take n).reverse, { r with stack := r.stack.drop n })

/-- Takes the last operand and forgets it. A temp that the last statement declares and that the
stack does not hold a second time is not declared any more: its value is only computed. -/
def discard (r : Region) (index : Nat) : Except Malformed Region := do
  let (v, r) ← r.pop index
  match v, r.code with
  | .temp t, .declare t' value :: rest =>
    if t = t' ∧ v ∉ r.stack then return { r with code := .eval value :: rest } else return r
  | _, _ => return r

end Region

/-! ## Merging -/

/-- How many operands two stacks share from the bottom up. -/
def sharedHeight (a b : List Operand) : Nat :=
  ((a.reverse.zip b.reverse).takeWhile fun (x, y) => x = y).length

/-- The least of some numbers; zero when there are none. -/
def least : List Nat → Nat
  | [] => 0
  | [n] => n
  | n :: rest => min n (least rest)

/-- Arms brought together. -/
structure Merged where
  /-- The temps that every arm assigns; they are declared before the arms. -/
  temps : List Nat
  arms : List Region
  /-- The stack after the arms. -/
  stack : List Operand
deriving Repr

/-- Assigns temps to the last operands of an arm, the lowest one first. -/
def assignTop (temps : List Nat) (arm : Region) : Region :=
  (temps.zip (arm.stack.take temps.length).reverse).foldl
    (fun r (t, v) => r.emit (.assign t v)) arm

/-- Brings arms together that started with the stack `before`, with fresh temps from `next` on. What
no arm touched stays; above it every place becomes a temp that every arm assigns at its end. -/
def merge (next : Nat) (before : List Operand) (arms : List Region) : Merged :=
  let kept := least (arms.map fun arm => sharedHeight arm.stack before)
  let live := least (arms.map fun arm => arm.stack.length - kept)
  let temps := (List.range live).map (next + ·)
  { temps
    arms := arms.map (assignTop temps)
    stack := (temps.map Operand.temp).reverse ++ before.drop (before.length - kept) }

end StackCode.CUnit
