import StackCode.Compile
import StackCode.Expr.Read
import StackCode.Host.Files
import StackCode.Wire.Program

/-!
# Programs in files

A program is read from its text, or from the bytes that an earlier compilation saved. Saved programs
may come from elsewhere, so they are checked again.
-/

namespace StackCode.Host

/-- Why there is no program. -/
inductive LoadError where
  | io (path : String) (e : IoError)
  | read (path : String) (e : ReadError)
  | decode (path : String) (e : Wire.DecodeError)
  | compile (e : CompileError)
deriving DecidableEq, Repr

/-- The wording of the error. -/
def LoadError.message : LoadError → String
  | io path e => path ++ ": " ++ e.message
  | read path e => path ++ ": " ++ e.message
  | decode path e => path ++ ": invalid IR file: " ++ e.message
  | compile e => e.message

namespace Files

/-- Reads the expression in a file. -/
def loadExpr (fs : Files) (path : String) : Except LoadError Expr := do
  let text ← (fs.readText path).mapError (.io path)
  (Expr.read text).mapError (.read path)

/-- Compiles the program in a file. -/
def loadSource (fs : Files) (path : String) (used : Bool) : Except LoadError Program := do
  let e ← fs.loadExpr path
  (e.compile used).mapError .compile

/-- Lists the program in a file as it is after a pass. -/
def dumpSource (fs : Files) (path : String) (used : Bool) (pass : Nat) :
    Except LoadError String := do
  let e ← fs.loadExpr path
  (e.dumpAfter used pass).mapError .compile

/-- Checks a program that was not compiled here. -/
def recheck (p : Program) (used : Bool) : Except HeightError Unit := do
  p.validate.mapError .malformed
  checkHeights p.code used.toNat

/-- Reads a saved program. -/
def loadCode (fs : Files) (path : String) (used : Bool) : Except LoadError Program := do
  let bytes ← (fs.read path).mapError (.io path)
  let p ← (Program.decode bytes.toList).mapError (.decode path)
  (recheck p used).mapError fun e => .compile (.ofHeights e)
  return p

/-- Saves a program. -/
def saveCode (fs : Files) (path : String) (p : Program) : Except LoadError Files :=
  (fs.write path p.encode.toArray).mapError (.io path)

end Files

end StackCode.Host
