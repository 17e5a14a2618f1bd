import StackCode.Text.Quoted

/-!
# Values

What programs compute with. A proc is a number that stands for one evaluation of a block literal:
two procs are equal exactly when they are the same one.
-/

namespace StackCode

/-- A value of a program. -/
inductive Value where
  | nil
  | bool (b : Bool)
  /-- A 64-bit signed integer; arithmetic wraps. -/
  | int (n : Int64)
  | str (s : String)
  | sym (s : String)
  /-- The object that is the receiver at the top level. -/
  | main
  /-- A block that was captured, by number. -/
  | proc (id : Nat)
deriving DecidableEq, Repr, Inhabited

namespace Value

/-- Everything except nil and false is true in a condition. -/
def isTruthy : Value → Bool
  | nil => false
  | bool b => b
  | _ => true

/-- The class of the value. -/
def className : Value → String
  | nil => "NilClass"
  | bool b => if b then "TrueClass" else "FalseClass"
  | int _ => "Integer"
  | str _ => "String"
  | sym _ => "Symbol"
  | main => "Object"
  | proc _ => "Proc"

/-- The value's name where it cannot be converted: nil, true and false name themselves. -/
def coercionName : Value → String
  | nil => "nil"
  | bool b => if b then "true" else "false"
  | v => v.className

/-- The value as the receiver of a call that fails. -/
def describe : Value → String
  | nil => "nil"
  | bool b => if b then "true" else "false"
  | main => "main:Object"
  | v => "an instance of " ++ v.className

/-- The text that printing the value writes. -/
def text : Value → String
  | nil => ""
  | bool b => if b then "true" else "false"
  | int n => toString n.toInt
  | str s => s
  | sym s => s
  | main => "main"
  | proc _ => "#<Proc>"

/-- One character of a string as `inspect` shows it. -/
def inspectChar : Char → List Char
  | '"' => ['\\', '"']
  | '\\' => ['\\', '\\']
  | '\n' => ['\\', 'n']
  | '\t' => ['\\', 't']
  | c => [c]

/-- The text that shows the value as a literal. -/
def inspect : Value → String
  | nil => "nil"
  | str s => String.ofList ('"' :: s.toList.flatMap inspectChar ++ ['"'])
  | sym s => ":" ++ s
  | v => v.text

/-- The value as messages about signals name it. -/
def label : Value → String
  | nil => "Nil"
  | bool b => if b then "Bool(true)" else "Bool(false)"
  | int n => "Integer(" ++ toString n.toInt ++ ")"
  | str s => "String(" ++ Text.quote s ++ ")"
  | sym s => "Symbol(" ++ Text.quote s ++ ")"
  | main => "Main"
  | proc _ => "Proc(..)"

end Value

/-- Why a stretch of code stops before its end. The loop, method, block or program that it belongs
to takes the signal up. -/
inductive Signal where
  /-- Leave the innermost loop. -/
  | breakOut
  /-- End the program. -/
  | halt
  /-- Start the next round of a loop, or finish a call of a block with a value. -/
  | next (value : Option Value)
  /-- Finish a method with a value. -/
  | ret (value : Value)
deriving DecidableEq, Repr, Inhabited

/-- The signal as messages name it. -/
def Signal.label : Signal → String
  | breakOut => "BreakOut"
  | halt => "Halt"
  | next none => "Next(None)"
  | next (some v) => "Next(Some(" ++ v.label ++ "))"
  | ret v => "Return(" ++ v.label ++ ")"

end StackCode
