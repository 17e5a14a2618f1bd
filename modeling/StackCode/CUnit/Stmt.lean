import StackCode.Code.Op
import StackCode.CUnit.Interned
import StackCode.CUnit.Literal

/-!
# Statements of C

The shapes of C that a program becomes. Values that cost nothing and never change are written where
they are used; every other value is put into a local variable, a temp, as soon as it is computed, so
that the order of effects is that of the program.
-/

namespace StackCode.CUnit

/-- A value that can be written more than once. -/
inductive Atom where
  | int (n : Int64)
  | str (s : Ref)
  | sym (s : Ref)
  | nil
  | bool (b : Bool)
  | self
  /-- An argument of the current call. -/
  | arg (index : UInt64)
  /-- C as it stands. -/
  | verbatim (code : String)
deriving DecidableEq, Repr

/-- What stands for a value of the operand stack. -/
inductive Operand where
  | literal (a : Atom)
  /-- The temp with this number. -/
  | temp (n : Nat)
deriving DecidableEq, Repr

/-- Where a variable is kept. -/
inductive Storage where
  /-- A slot of the environment that is `depth` steps out. -/
  | local (depth : Nat) (slot : UInt64) (name : String)
  | global (name : Ref)
deriving DecidableEq, Repr

/-- The functions of a unit. -/
inductive FunctionName where
  | main
  | method (number : Nat) (name : String)
  | block (number : Nat)
deriving DecidableEq, Repr

/-- What is computed once. -/
inductive Rhs where
  | load (place : Storage)
  | send (receiver : Option Operand) (message : Ref) (args : List Operand) (block : Option Operand)
  | yield (args : List Operand)
  | closure (function : FunctionName)
  /-- C as it stands. -/
  | verbatim (code : String)
deriving DecidableEq, Repr

/-- A statement. -/
inductive Stmt where
  /-- Declares a temp with a computed value. -/
  | declare (temp : Nat) (value : Rhs)
  /-- Computes a value that is not needed. -/
  | eval (value : Rhs)
  /-- Declares a temp that is assigned later. -/
  | declareNil (temp : Nat)
  /-- Assigns a temp. -/
  | assign (temp : Nat) (value : Operand)
  | store (place : Storage) (value : Operand)
  | checkArgs (expected : UInt64)
  | defineMethod (name : Ref) (function : FunctionName)
  | ifElse (condition : Operand) (yes no : List Stmt)
  /-- Runs `test`, leaves the loop unless `condition` is true, runs `body`, and starts again. -/
  | loop (test : List Stmt) (condition : Operand) (body : List Stmt)
  | ret (value : Operand)
  | breakLoop
  | continueLoop
  | exit
  | setVisibility (v : Visibility)
  /-- A line of C as it stands. -/
  | verbatim (line : String)
  /-- Lines of C, one level deeper. -/
  | indented (lines : List String)
deriving Repr

/-! ## Printing -/

/-- A value in C. The least integer has no literal of its own. -/
def Atom.code : Atom → String
  | int n =>
    if n = Int64.minValue then "rt_int(INT64_MIN)"
    else "rt_int(INT64_C(" ++ toString n.toInt ++ "))"
  | str s => "rt_str(" ++ s.code ++ ")"
  | sym s => "rt_sym(" ++ s.code ++ ")"
  | nil => "rt_nil()"
  | bool b => if b then "rt_bool(1)" else "rt_bool(0)"
  | self => "self"
  | arg index => "rt_arg(argc, args, " ++ toString index.toNat ++ ")"
  | verbatim code => code

/-- The name of a temp. -/
def tempName (n : Nat) : String := "t" ++ toString n

/-- An operand in C. -/
def Operand.code : Operand → String
  | literal a => a.code
  | temp n => tempName n

/-- The place of a variable in C. -/
def Storage.code : Storage → String
  | .local depth slot name =>
    (if depth = 0 then "env" else "rt_env_at(env, " ++ toString depth ++ ")")
      ++ "->vars[" ++ toString slot.toNat ++ "] " ++ comment name
  | .global name => "rt_globals[" ++ name.code ++ "]"

/-- The name of a function in C. -/
def FunctionName.code : FunctionName → String
  | main => "cinder_main"
  | method number name => "m" ++ toString number ++ "_" ++ mangle name
  | block number => "b" ++ toString number ++ "_block"

/-- Arguments in C. -/
def argArray : List Operand → String
  | [] => "NULL"
  | args => "(Value[])\x7b" ++ ", ".intercalate (args.map Operand.code) ++ "\x7d"

/-- A computation in C. -/
def Rhs.code : Rhs → String
  | load s => s.code
  | send receiver message args block =>
    let target := (receiver.map Operand.code).getD "self"
    let blockCode := (block.map Operand.code).getD "rt_nil()"
    "rt_send(" ++ target ++ ", " ++ (if receiver.isSome then "1" else "0") ++ ", "
      ++ message.code ++ " " ++ comment message.text ++ ", " ++ toString args.length ++ ", "
      ++ argArray args ++ ", " ++ blockCode ++ ")"
  | yield args => "rt_yield(blk, " ++ toString args.length ++ ", " ++ argArray args ++ ")"
  | closure function => "rt_proc(rt_closure_new(" ++ function.code ++ ", env, self, blk))"
  | verbatim code => code

/-- One level deeper. -/
def indent (line : String) : String := "    " ++ line

mutual

/-- The lines of a statement. -/
def Stmt.lines : Stmt → List String
  | .declare t e => ["Value " ++ tempName t ++ " = " ++ e.code ++ ";"]
  | .eval e => [e.code ++ ";"]
  | .declareNil t => ["Value " ++ tempName t ++ " = rt_nil();"]
  | .assign t v => [tempName t ++ " = " ++ v.code ++ ";"]
  | .store s v => [s.code ++ " = " ++ v.code ++ ";"]
  | .checkArgs expected => ["rt_check_args(argc, " ++ toString expected.toNat ++ ");"]
  | .defineMethod name function =>
    ["rt_define_method(" ++ name.code ++ ", " ++ function.code ++ ");"]
  | .ifElse c yes no =>
    ["if (rt_truthy(" ++ c.code ++ ")) \x7b"] ++ (Stmt.block yes).map indent ++ ["\x7d else \x7b"]
      ++ (Stmt.block no).map indent ++ ["\x7d"]
  | .loop test c body =>
    ["while (1) \x7b"] ++ (Stmt.block test).map indent
      ++ [indent ("if (!rt_truthy(" ++ c.code ++ ")) break;")] ++ (Stmt.block body).map indent
      ++ ["\x7d"]
  | .ret v => ["return " ++ v.code ++ ";"]
  | .breakLoop => ["break;"]
  | .continueLoop => ["continue;"]
  | .exit => ["rt_exit();"]
  | .setVisibility .everyone => ["rt_visibility = RT_PUBLIC;"]
  | .setVisibility .selfOnly => ["rt_visibility = RT_PRIVATE;"]
  | .verbatim line => [line]
  | .indented lines => lines.map indent

/-- The lines of statements. -/
def Stmt.block : List Stmt → List String
  | [] => []
  | s :: rest => s.lines ++ Stmt.block rest

end

end StackCode.CUnit
