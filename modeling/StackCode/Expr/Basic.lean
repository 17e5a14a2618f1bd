/-!
# Expressions

The trees that programs are made of. Each constructor is one form of the textual notation, named in
its comment.
-/

namespace StackCode

/-- An expression. An absent receiver is the current one, an absent branch or value is nil. -/
inductive Expr where
  /-- An integer, `(lit 42)`. -/
  | int (n : Int64)
  /-- A string, `(str "hi")`. -/
  | str (s : String)
  /-- A symbol, `(sym name)`. -/
  | sym (s : String)
  /-- The value nil, `(nil)`. -/
  | nil
  /-- A truth value, `(true)` or `(false)`. -/
  | bool (b : Bool)
  /-- The current receiver, `(self)`. -/
  | self
  /-- A local variable, `(lvar x)`. -/
  | var (name : String)
  /-- An assignment to a local variable, `(lasgn x VALUE)`. -/
  | assign (name : String) (value : Expr)
  /-- A global variable, `(gvar $x)`. -/
  | gvar (name : String)
  /-- An assignment to a global variable, `(gasgn $x VALUE)`. -/
  | gassign (name : String) (value : Expr)
  /-- A method call, `(call RECEIVER name ARGS...)`. -/
  | call (receiver : Option Expr) (name : String) (args : List Expr)
  /-- A method call with a literal block, `(iter CALL (args PARAMS...) BODY...)`. -/
  | iter (receiver : Option Expr) (name : String) (args : List Expr) (params : List String)
      (body : List Expr)
  /-- A call of the current method's block, `(yield ARGS...)`. -/
  | yield (args : List Expr)
  /-- A conditional, `(if TEST THEN ELSE)`. -/
  | cond (test : Expr) (yes no : Option Expr)
  /-- A loop, `(while TEST BODY...)`. -/
  | loop (test : Expr) (body : List Expr)
  /-- `(and LEFT RIGHT)`: the right side counts only when the left one is true. -/
  | conj (left right : Expr)
  /-- `(or LEFT RIGHT)`: the right side counts only when the left one is false. -/
  | disj (left right : Expr)
  /-- `(not OPERAND)`. -/
  | neg (operand : Expr)
  /-- A sequence, `(block ITEMS...)`: the value of the last item. -/
  | seq (items : List Expr)
  /-- The end of a method, `(return VALUE)`. -/
  | ret (value : Option Expr)
  /-- The end of a loop, `(break)`. -/
  | brk
  /-- The end of one round of a loop or of one call of a block, `(next VALUE)`. -/
  | next (value : Option Expr)
  /-- A method definition, `(defn name (args PARAMS...) BODY...)`. -/
  | method (name : String) (params : List String) (body : List Expr)
deriving Repr, Inhabited

namespace Expr

/-- The head of the form that denotes the expression. -/
def kind : Expr → String
  | int _ => "lit"
  | str _ => "str"
  | sym _ => "sym"
  | nil => "nil"
  | bool b => if b then "true" else "false"
  | self => "self"
  | var _ => "lvar"
  | assign .. => "lasgn"
  | gvar _ => "gvar"
  | gassign .. => "gasgn"
  | call .. => "call"
  | iter .. => "iter"
  | yield _ => "yield"
  | cond .. => "if"
  | loop .. => "while"
  | conj .. => "and"
  | disj .. => "or"
  | neg _ => "not"
  | seq _ => "block"
  | ret _ => "return"
  | brk => "break"
  | next _ => "next"
  | method .. => "defn"

end Expr

end StackCode
