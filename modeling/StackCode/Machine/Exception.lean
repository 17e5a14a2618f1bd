import StackCode.Value

/-!
# Exceptions

What a running program can raise. An exception that leaves a call collects the name of the method or
block and the place of the call.
-/

namespace StackCode

/-- What a program raised. -/
inductive Exception where
  | noMethod (name : String) (receiver : Value)
  | privateMethod (name : String) (receiver : Value)
  | wrongArity (given expected : Nat)
  /-- The operand of an integer operator is no integer. -/
  | notCoercible (operand : Value)
  /-- An integer is compared with something else. -/
  | notComparable (operand : Value)
  /-- What is appended to a string is no string. -/
  | notAString (operand : Value)
  | dividedByZero
  | noBlock
  | stackTooDeep
deriving DecidableEq, Repr

namespace Exception

/-- The class of the exception. -/
def className : Exception → String
  | noMethod .. | privateMethod .. => "NoMethodError"
  | wrongArity .. | notComparable _ => "ArgumentError"
  | notCoercible _ | notAString _ => "TypeError"
  | dividedByZero => "ZeroDivisionError"
  | noBlock => "LocalJumpError"
  | stackTooDeep => "SystemStackError"

/-- What the exception says. -/
def text : Exception → String
  | noMethod name receiver => "undefined method '" ++ name ++ "' for " ++ receiver.describe
  | privateMethod name receiver =>
    "private method '" ++ name ++ "' called for " ++ receiver.describe
  | wrongArity given expected =>
    "wrong number of arguments (given " ++ toString given ++ ", expected " ++ toString expected
      ++ ")"
  | notCoercible operand => operand.coercionName ++ " can't be coerced into Integer"
  | notComparable operand => "comparison of Integer with " ++ operand.coercionName ++ " failed"
  | notAString operand => "no implicit conversion of " ++ operand.coercionName ++ " into String"
  | dividedByZero => "divided by 0"
  | noBlock => "no block given (yield)"
  | stackTooDeep => "stack level too deep"

/-- The line that reports the exception. -/
def message (e : Exception) : String := e.text ++ " (" ++ e.className ++ ")"

end Exception

/-- A call that an exception left: the method or block, and the instruction that made the call. -/
structure Activation where
  name : String
  callSite : Nat
deriving DecidableEq, Repr

/-- The call in a backtrace. -/
def Activation.text (a : Activation) : String :=
  "in '" ++ a.name ++ "' (called at instruction " ++ toString a.callSite ++ ")"

/-- An exception and the calls that it left, the innermost first. -/
structure Raised where
  exception : Exception
  trace : List Activation := []
deriving DecidableEq, Repr

namespace Raised

/-- Notes that the exception leaves one more call. -/
def leave (e : Raised) (call : Activation) : Raised := { e with trace := e.trace ++ [call] }

/-- The calls, one a line. -/
def backtrace (e : Raised) : String :=
  String.join <| e.trace.zipIdx.map fun (call, i) =>
    "    " ++ toString i ++ ": " ++ call.text ++ "\n"

end Raised

end StackCode
