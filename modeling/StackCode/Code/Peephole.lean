import StackCode.Code.Op

/-!
# Dropping what is dropped again

Three rules remove a pop: a constant that is popped at once is not pushed, a copy that is popped at
once is not made, and a copy that only outlives the store of its twin is not made either.

The code kept so far is held with its last instruction first, so that a removal may bring the next
one about.
-/

namespace StackCode

namespace Peephole

/-- What remains of the kept code when a pop that follows it can go. -/
def absorb? : List Instruction → Option (List Instruction)
  | [] => none
  | last :: rest =>
    if last.op.isPurePush || last.op = .dup then some rest
    else
      match last.op, rest with
      | .setLocal .., before :: rest' | .setGlobal _, before :: rest' =>
        if before.op = .dup then some (last :: rest') else none
      | _, _ => none

/-- Takes one more instruction in. -/
def step (kept : List Instruction) (i : Instruction) : List Instruction :=
  if i.op = .pop then (absorb? kept).getD (i :: kept) else i :: kept

end Peephole

/-- The code without the values that are popped at once. -/
def dropUnused (code : List Instruction) : List Instruction :=
  (code.foldl Peephole.step []).reverse

end StackCode
