import StackCode.Code.Op
import StackCode.Value

/-!
# Malformed code

What can be wrong with code that no lowering produces: blocks that do not nest, operands that are
not there, scopes that do not exist. Every consumer of code reports such a fault in one form.
-/

namespace StackCode

/-- The consumer of code that met the fault. -/
inductive Stage where
  | pass (number : Nat)
  | machine
  | generator
deriving DecidableEq, Repr

/-- The stage in messages. -/
def Stage.text : Stage → String
  | pass number => "pass " ++ toString number
  | machine => "vm"
  | generator => "codegen"

/-- What is wrong. -/
inductive Malformed.Cause where
  | outOfStack
  /-- A block ends with another label than its own. -/
  | wrongEnd (expected : BlockLabel) (found : Op)
  /-- The enclosing block ends before the mark. -/
  | endBefore (label : BlockLabel) (sought : Terminator)
  /-- The code ends before the mark. -/
  | missing (sought : Terminator)
  /-- A mark stands outside its block. -/
  | stray (op : Op)
  | noRootScope
  | outerNotEarlier (scope : Nat) (outer : ScopeId)
  | slotOutOfRange (name : String) (scope : Nat) (slot : UInt64)
  | unknownScope (scope : ScopeId)
  | underflow (op : Op) (needed live : Nat)
  | unevenBranches (yes no : Nat)
  | conditionHeight
  | loopHeight
  | bodyHeight (label : BlockLabel) (height : Nat)
  | finalHeight (height expected : Nat)
  | notABlock (value : Value)
  | escapedProgram (signal : Signal)
  | escapedBody (signal : Signal)
  | noFrame
  /-- A name means one variable in the running program and another one in its text. -/
  | bindsElsewhere (name : String) (found : ScopeId) (foundDepth : Nat) (expected : ScopeId)
      (expectedDepth : Nat)
  /-- The body of a generated function leaves no value to return. -/
  | noResult (function : String)
  /-- Any other fault, in words. -/
  | other (text : String)
deriving DecidableEq, Repr

/-- A fault: what is wrong at which instruction, and who met it. -/
structure Malformed where
  index : Nat
  cause : Malformed.Cause
  stage : Option Stage := none
deriving DecidableEq, Repr

namespace Malformed

/-- The wording of a cause. -/
def Cause.text : Cause → String
  | outOfStack => "out of stack"
  | wrongEnd expected found => "expected END " ++ expected.text ++ ", found " ++ found.text
  | endBefore label sought => "END " ++ label.text ++ " reached while looking for " ++ sought.text
  | missing sought => "stream ended while looking for " ++ sought.text
  | stray op => "unexpected " ++ op.text ++ " outside its block"
  | noRootScope => "scope tree has no root scope"
  | outerNotEarlier scope outer =>
    "scope s" ++ toString scope ++ " has outer " ++ outer.text ++ " that is not an earlier scope"
  | slotOutOfRange name scope slot =>
    "variable '" ++ name ++ "' of scope s" ++ toString scope ++ " has slot " ++ toString slot.toNat
      ++ " out of range"
  | unknownScope scope => "unknown scope " ++ scope.text
  | underflow op needed live =>
    "stack underflow: " ++ op.text ++ " needs " ++ toString needed ++ " values, " ++ toString live
      ++ " live"
  | unevenBranches yes no =>
    "IF branches leave " ++ toString yes ++ " and " ++ toString no ++ " values"
  | conditionHeight => "WHILE condition must leave exactly one value"
  | loopHeight => "WHILE body must leave the stack as it found it"
  | bodyHeight label height =>
    label.text ++ " body must leave one value, leaves " ++ toString height
  | finalHeight height expected =>
    "program leaves " ++ toString height ++ " values, expected " ++ toString expected
  | notABlock value => "SEND expected a block, found " ++ value.className
  | escapedProgram signal => signal.label ++ " escaped the program"
  | escapedBody signal => signal.label ++ " escaped its body"
  | noFrame => "no active call frame"
  | bindsElsewhere name found foundDepth expected expectedDepth =>
    "'" ++ name ++ "' binds to " ++ found.text ++ " at depth " ++ toString foundDepth
      ++ " at run time, " ++ expected.text ++ " at depth " ++ toString expectedDepth
      ++ " statically"
  | noResult function => function ++ " left no value"
  | other text => text

/-- Records who met the fault, unless that is known already. -/
def inStage (e : Malformed) (stage : Stage) : Malformed :=
  match e.stage with
  | some _ => e
  | none => { e with stage := some stage }

/-- The wording of the fault. -/
def message (e : Malformed) : String :=
  let place := match e.stage with
    | some stage => " in " ++ stage.text
    | none => ""
  "structural error" ++ place ++ " at instruction " ++ toString e.index ++ ": " ++ e.cause.text

end Malformed

end StackCode
