import StackCode.Arith
import StackCode.Machine.Exception

/-!
# Built-in methods

The methods that values answer before those of the program are asked. Integers and strings have
some of their own; all values can be compared, negated and converted to strings.
-/

namespace StackCode.Builtin

/-- Runs `k` on the only argument. -/
def withOne (args : List Value) (k : Value → Except Exception Value) : Except Exception Value :=
  match args with
  | [v] => k v
  | _ => .error (.wrongArity args.length 1)

/-- Gives `v` when there are no arguments. -/
def withNone (args : List Value) (v : Value) : Except Exception Value :=
  match args with
  | [] => .ok v
  | _ => .error (.wrongArity args.length 0)

/-- An operator of an integer; equality is not among them, because all values have it. -/
def ofInt? (a : Int64) (message : String) (args : List Value) :
    Option (Except Exception Value) := do
  let op ← IntOp.ofName? message
  if op.isArithmetic || op.isComparison then
    some <| withOne args fun
      | .int b =>
        match op.eval? a b with
        | some v => .ok v
        | none => .error .dividedByZero
      | other => .error (if op.isArithmetic then .notCoercible other else .notComparable other)
  else none

/-- A method of a string. Lengths count characters. -/
def ofStr? (s : String) (message : String) (args : List Value) : Option (Except Exception Value) :=
  match message with
  | "+" =>
    some <| withOne args fun
      | .str other => .ok (.str (s ++ other))
      | other => .error (.notAString other)
  | "length" | "size" => some (withNone args (.int (Int64.ofNat s.length)))
  | _ => none

/-- A method of every value. -/
def ofAny? (receiver : Value) (message : String) (args : List Value) :
    Option (Except Exception Value) :=
  match message with
  | "==" => some (withOne args fun v => .ok (.bool (receiver = v)))
  | "!=" => some (withOne args fun v => .ok (.bool (receiver ≠ v)))
  | "!" => some (withNone args (.bool (! receiver.isTruthy)))
  | "nil?" => some (withNone args (.bool (receiver = .nil)))
  | "to_s" => some (withNone args (.str receiver.text))
  | _ => none

/-- The method that the receiver's own class has. -/
def ofClass? (receiver : Value) (message : String) (args : List Value) :
    Option (Except Exception Value) :=
  match receiver with
  | .int a => ofInt? a message args
  | .str s => ofStr? s message args
  | _ => none

/-- The result of a built-in method; none when the receiver has no such method. -/
def call? (receiver : Value) (message : String) (args : List Value) :
    Option (Except Exception Value) :=
  (ofClass? receiver message args).or (ofAny? receiver message args)

end StackCode.Builtin
