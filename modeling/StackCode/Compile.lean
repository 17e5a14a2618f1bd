import StackCode.Code.Fold
import StackCode.Code.Height
import StackCode.Code.Listing
import StackCode.Code.Peephole
import StackCode.Expr.Lower

/-!
# Compiling

An expression becomes a program in four passes: lowering, constant folding, the removal of unused
values, and the check of stack heights.
-/

namespace StackCode

/-- The passes, in order. -/
inductive Pass where
  | lower | fold | peephole | verify
deriving DecidableEq, Repr

namespace Pass

/-- The number of the pass. -/
def number : Pass → Nat
  | lower => 1
  | fold => 2
  | peephole => 3
  | verify => 4

/-- The name of the pass in listings. -/
def name : Pass → String
  | lower => "lower"
  | fold => "fold"
  | peephole => "peephole"
  | verify => "verify"

/-- The pass with this number. -/
def ofNumber? : Nat → Option Pass
  | 1 => some lower
  | 2 => some fold
  | 3 => some peephole
  | 4 => some verify
  | _ => none

end Pass

/-- Why an expression does not become a program. -/
inductive CompileError where
  | misplaced (e : LowerError)
  | malformed (e : Malformed)
  /-- The operands of a message cannot be counted, which aborts the program. -/
  | countOverflow (op : Op)
  | noSuchPass (number : Nat)
deriving DecidableEq, Repr

/-- The wording of the error. -/
def CompileError.message : CompileError → String
  | misplaced e => e.message
  | malformed e => e.message
  | countOverflow _ => "attempt to add with overflow"
  | noSuchPass number => "no pass " ++ toString number ++ ": passes are numbered 1 to 4"

/-- The error of the last pass. -/
def CompileError.ofHeights : HeightError → CompileError
  | .malformed e => .malformed (e.inStage (.pass 4))
  | .countOverflow op => .countOverflow op

namespace Pass

/-- Runs one pass. The first one makes the program of the expression, the others work on the program
before them. -/
def apply (e : Expr) (used : Bool) (p : Program) : Pass → Except CompileError Program
  | lower => (e.toProgram used).mapError .misplaced
  | fold => .ok { p with code := foldConstants p.code }
  | peephole => .ok { p with code := dropUnused p.code }
  | verify => do
    (checkHeights p.code used.toNat).mapError .ofHeights
    return p

/-- The passes up to this one. -/
def upTo : Pass → List Pass
  | lower => [lower]
  | fold => [lower, fold]
  | peephole => [lower, fold, peephole]
  | verify => [lower, fold, peephole, verify]

end Pass

namespace Expr

/-- The program as it is after a pass. -/
def compileUpTo (e : Expr) (used : Bool) (last : Pass) : Except CompileError Program :=
  last.upTo.foldlM (fun p pass => pass.apply e used p) { code := [] }

/-- The program of an expression, after all passes. -/
def compile (e : Expr) (used : Bool) : Except CompileError Program :=
  e.compileUpTo used .verify

/-- The listing of the program as it is after the pass with this number. -/
def dumpAfter (e : Expr) (used : Bool) (number : Nat) : Except CompileError String := do
  let some pass := Pass.ofNumber? number | throw (.noSuchPass number)
  let p ← e.compileUpTo used pass
  return Listing.render ("after pass " ++ toString pass.number ++ " (" ++ pass.name ++ ")") p

end Expr

end StackCode
