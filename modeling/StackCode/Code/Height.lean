import StackCode.Code.Program

/-!
# Stack heights

The height of the operand stack is known before a program runs. Blocks have to nest with matching
labels, and every instruction has to find its operands. The two branches of a conditional leave one
height, a loop leaves the height that it found, and a body leaves one value.

The bound in `heightWithin` counts instructions: every recursive call has fewer of them.
-/

namespace StackCode

/-- Why the check of heights fails. -/
inductive HeightError where
  | malformed (e : Malformed)
  /-- A message has so many operands that they cannot be counted, which aborts the program. -/
  | countOverflow (op : Op)
deriving DecidableEq, Repr

/-- The code is malformed at this instruction. -/
def HeightError.ofCause (index : Nat) (cause : Malformed.Cause) : HeightError :=
  .malformed ⟨index, cause, none⟩

/-- How many values an operation takes and how many it leaves; none for the marks of blocks. Counts
are 64-bit numbers: there is none for a message when its arguments, its receiver and its block are
too many together. -/
def Op.effect? : Op → Option (Nat × Nat)
  | pushInt _ | pushString _ | pushSymbol _ => some (0, 1)
  | pushNil | pushTrue | pushFalse | pushSelf => some (0, 1)
  | pop => some (1, 0)
  | dup => some (1, 2)
  | getLocal _ | getGlobal _ => some (0, 1)
  | setLocal .. | setGlobal _ => some (1, 0)
  | checkArgs _ => some (0, 0)
  | pushArg _ => some (0, 1)
  | send _ argc receiver withBlock =>
    let taken := argc.toNat + receiver.toNat + withBlock.toNat
    if taken < UInt64.size then some (taken, 1) else none
  | yield argc => some (argc.toNat, 1)
  | ret => some (1, 0)
  | breakOut | halt | setVisibility _ => some (0, 0)
  | next withValue => some (withValue.toNat, 0)
  | ifTrue | orElse | whileTrue | loopBody | defineMethod .. | defineBlock _ | endBlock _ => none

namespace Segment

/-- The height after the segment, which starts at height `h` and has at most `n` instructions. -/
def heightWithin : Nat → Segment → Nat → Except HeightError Nat
  | 0, _, h => .ok h
  | _ + 1, ⟨_, []⟩, h => .ok h
  | n + 1, ⟨index, i :: rest⟩, h =>
    let after : Segment := ⟨index + 1, rest⟩
    match i.op.effect? with
    | some (taken, left) =>
      if h < taken then .error (.ofCause index (.underflow i.op taken h))
      else heightWithin n after (h - taken + left)
    | none =>
      match i.op with
      | .ifTrue =>
        if h = 0 then .error (.ofCause index .outOfStack)
        else do
          let (yes, after) ← (after.takeBlock .orElse none).mapError .malformed
          let (no, after) ← (after.takeBlock .ending (some .cond)).mapError .malformed
          let yesHeight ← heightWithin n yes (h - 1)
          let noHeight ← heightWithin n no (h - 1)
          if yesHeight ≠ noHeight then throw (.ofCause index (.unevenBranches yesHeight noHeight))
          heightWithin n after yesHeight
      | .whileTrue => do
        let (test, after) ← (after.takeBlock .loopBody none).mapError .malformed
        let (body, after) ← (after.takeBlock .ending (some .loop)).mapError .malformed
        if (← heightWithin n test h) ≠ h + 1 then throw (.ofCause index .conditionHeight)
        if (← heightWithin n body h) ≠ h then throw (.ofCause index .loopHeight)
        heightWithin n after h
      | .defineMethod .. | .defineBlock _ => do
        let label := i.op.opens?.getD .method
        let (body, after) ← (after.takeBlock .ending (some label)).mapError .malformed
        let height ← heightWithin n body 0
        if height ≠ 1 then throw (.ofCause index (.bodyHeight label height))
        heightWithin n after (h + 1)
      | .send .. => .error (.countOverflow i.op)
      | op => .error (.ofCause index (.stray op))

/-- The height after the segment, which starts at height `h`. -/
def height (s : Segment) (h : Nat) : Except HeightError Nat :=
  s.heightWithin s.code.length h

end Segment

/-- Checks that the code, started on an empty stack, leaves `expected` values. -/
def checkHeights (code : List Instruction) (expected : Nat) : Except HeightError Unit := do
  let height ← Segment.height ⟨0, code⟩ 0
  if height ≠ expected then throw (.ofCause code.length (.finalHeight height expected))

end StackCode
