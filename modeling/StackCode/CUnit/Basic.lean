import StackCode.CUnit.Prelude
import StackCode.CUnit.Stmt

/-!
# Units of C

A program as one C file: settings, tables of symbols and strings, the support code that all programs
share, and one function for the top level and for every method and block.
-/

namespace StackCode

namespace CUnit

/-- A function. -/
structure Function where
  name : FunctionName
  /-- The scope of the body. -/
  scope : ScopeId
  /-- How many variables its environment has. -/
  envSize : Nat
  body : List Stmt
deriving Repr

namespace Function

/-- The head of the function. -/
def signature (f : Function) : String :=
  match f.name with
  | .main | .method .. =>
    "static Value " ++ f.name.code ++ "(Value self, int argc, Value *args, Closure *blk)"
  | .block _ => "static Value " ++ f.name.code ++ "(Closure *closure, int argc, Value *args)"

/-- The lines that set the function's own variables up. -/
def opening (f : Function) : List String :=
  let size := toString f.envSize
  let env := match f.name with
    | .main | .method .. => ["Env *env = rt_env_new(NULL, " ++ size ++ ");"]
    | .block _ =>
      ["Value self = closure->self;", "Closure *blk = closure->blk;",
        "Env *env = rt_env_new(closure->env, " ++ size ++ ");"]
  env ++ ["(void)self; (void)argc; (void)args; (void)blk; (void)env;"]

/-- The lines of the function. -/
def lines (f : Function) : List String :=
  [f.signature ++ " \x7b"] ++ (f.opening ++ Stmt.block f.body).map indent ++ ["\x7d"]

end Function

end CUnit

open CUnit in
/-- A unit of C. -/
structure CUnit where
  maxCallDepth : Nat
  /-- Whether the unit prints the value of the program at its end. -/
  echo : Bool
  /-- Symbols and the names of methods and globals, by number. -/
  symbols : List String
  strings : List String
  /-- The functions of methods and blocks; inner ones come before those around them. -/
  functions : List Function
  main : Function
deriving Repr

namespace CUnit

/-- All functions, the top level last. -/
def allFunctions (u : CUnit) : List Function := u.functions ++ [u.main]

/-- An array of C with these items and a last one that marks its end. -/
def tableLine (head : String) (items : List String) (last : String) : String :=
  head ++ " = \x7b" ++ String.join (items.map fun item => " " ++ item ++ ",") ++ " " ++ last
    ++ " \x7d;"

/-- What stands before the support code. -/
def heading (u : CUnit) : List String :=
  ["/* generated by cinder */",
    "#define RT_MAX_CALL_DEPTH " ++ toString u.maxCallDepth,
    "#define RT_ECHO_RESULT " ++ (if u.echo then "1" else "0"),
    "#define RT_SYM_COUNT " ++ toString u.symbols.length,
    "#define RT_STR_COUNT " ++ toString u.strings.length,
    "",
    "#include <stddef.h>",
    tableLine "static const char *const rt_sym_names[]" (u.symbols.map stringLiteral) "NULL",
    tableLine "static const char *const rt_str_data[]" (u.strings.map stringLiteral) "NULL",
    tableLine "static const size_t rt_str_lens[]"
      (u.strings.map fun s => toString s.utf8ByteSize) "0",
    ""]

/-- What stands after the support code. -/
def closing (u : CUnit) : List String :=
  [""] ++ u.allFunctions.map (fun f => f.signature ++ ";") ++ [""]
    ++ u.allFunctions.flatMap (fun f => f.lines ++ [""])
    ++ ["int main(void) \x7b",
      "    rt_init();",
      "    rt_finish(" ++ u.main.name.code ++ "(rt_main_object(), 0, NULL, NULL));",
      "    return 0;",
      "\x7d"]

/-- The text of these lines, each with a line end. -/
def textOf (lines : List String) : String := String.join (lines.map (· ++ "\n"))

/-- The text of the unit with `support` as the support code. -/
def renderWith (u : CUnit) (support : String) : String :=
  textOf u.heading ++ support ++ textOf u.closing

/-- The text of the unit. -/
def render (u : CUnit) : String := u.renderWith prelude

end CUnit

end StackCode
