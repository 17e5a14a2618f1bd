import StackCode.Code.Program
import StackCode.Expr.Basic

/-!
# From expressions to code

The code of an expression leaves exactly one value on the operand stack; a sequence drops all values
but its last. Scopes are opened and variables declared on the way: every instruction carries the
scope in which it stands, and a variable exists from its first assignment in the text on.
-/

namespace StackCode

/-- A form that has no meaning where it stands. -/
inductive LowerError where
  | breakOutsideLoop
  | breakInBlock
  | returnInBlock
  | nextOutsideLoop
deriving DecidableEq, Repr

namespace LowerError

/-- The head of the misplaced form. -/
def form : LowerError → String
  | breakOutsideLoop | breakInBlock => "break"
  | returnInBlock => "return"
  | nextOutsideLoop => "next"

/-- What is wrong. -/
def reason : LowerError → String
  | breakOutsideLoop => "break outside of a loop"
  | breakInBlock => "break cannot leave a block"
  | returnInBlock => "return cannot leave a block"
  | nextOutsideLoop => "next outside of a loop or block"

/-- What to write instead. -/
def hint? : LowerError → Option String
  | breakInBlock => some "use next to finish the block invocation instead"
  | returnInBlock => some "use next to hand a value back to the yielding method"
  | _ => none

/-- The wording of the error. -/
def message (e : LowerError) : String :=
  let hint := match e.hint? with
    | some hint => "\n  hint: " ++ hint
    | none => ""
  "lower error: " ++ e.form ++ ": " ++ e.reason ++ hint

end LowerError

/-- The kinds of bodies that code can stand in. -/
inductive BodyKind where
  | top | method | block
deriving DecidableEq, Repr

/-- Where an expression stands: its scope, its body, and whether a loop of that body is around
it. -/
structure Place where
  scope : ScopeId := .root
  body : BodyKind := .top
  inLoop : Bool := false
deriving DecidableEq, Repr

namespace Place

/-- These operations, as instructions of the place. -/
def emit (here : Place) (ops : List Op) : List Instruction := ops.map (⟨·, here.scope⟩)

end Place

/-- Code, and the scopes as they are after it. -/
abbrev Lowered := Except LowerError (List Instruction × ScopeTree)

namespace Expr

/-- The receiver that a call evaluates: the current one needs no evaluation. -/
def explicitReceiver? : Option Expr → Option Expr
  | some .self => none
  | r => r

/-- The operation that a call with neither receiver nor arguments nor block stands for, when its
name has a meaning of its own. -/
def reserved? : String → Option Op
  | "exit" => some .halt
  | "public" => some (.setVisibility .everyone)
  | "private" => some (.setVisibility .selfOnly)
  | _ => none

/-- Declares the parameters of a body and binds them to the arguments from number `n` on. -/
def bindParams (here : Place) : Nat → List String → ScopeTree → List Instruction × ScopeTree
  | _, [], t => ([], t)
  | n, name :: rest, t =>
    let (code, t') := bindParams here (n + 1) rest (t.declare here.scope name)
    (here.emit [.pushArg n.toUInt64, .setLocal name true] ++ code, t')

mutual

/-- The code of an expression. -/
def lower (here : Place) (t : ScopeTree) : Expr → Lowered
  | .int n => .ok (here.emit [.pushInt n], t)
  | .str s => .ok (here.emit [.pushString s], t)
  | .sym s => .ok (here.emit [.pushSymbol s], t)
  | .nil => .ok (here.emit [.pushNil], t)
  | .bool b => .ok (here.emit [if b then .pushTrue else .pushFalse], t)
  | .self => .ok (here.emit [.pushSelf], t)
  | .var name =>
    if t.isBound here.scope name then .ok (here.emit [.getLocal name], t)
    else .ok (here.emit [.send name 0 false false], t)
  | .assign name value => do
    let t := if t.isBound here.scope name then t else t.declare here.scope name
    let (code, t) ← lower here t value
    return (code ++ here.emit [.dup, .setLocal name false], t)
  | .gvar name => .ok (here.emit [.getGlobal name], t)
  | .gassign name value => do
    let (code, t) ← lower here t value
    return (code ++ here.emit [.dup, .setGlobal name], t)
  | .call receiver name args =>
    match explicitReceiver? receiver, args, reserved? name with
    | none, [], some op => .ok (here.emit [op, .pushNil], t)
    | _, _, _ => do
      let (target, explicit, t) ← lowerReceiver here t receiver
      let (code, t) ← lowerAll here t args
      return (target ++ code ++ here.emit [.send name args.length.toUInt64 explicit false], t)
  | .iter receiver name args params body => do
    let (target, explicit, t) ← lowerReceiver here t receiver
    let (code, t) ← lowerAll here t args
    let (t, scope) := t.push here.scope .block
    let inside : Place := { scope, body := .block }
    let (binding, t) := bindParams inside 0 params t
    let (inner, t) ← lowerBody inside t body
    return (target ++ code ++ here.emit [.defineBlock scope] ++ binding ++ inner
      ++ here.emit [.endBlock .block, .send name args.length.toUInt64 explicit true], t)
  | .yield args => do
    let (code, t) ← lowerAll here t args
    return (code ++ here.emit [.yield args.length.toUInt64], t)
  | .cond test yes no => do
    let (code, t) ← lower here t test
    let (t, scope) := t.push here.scope .hoisted
    let (yesCode, t) ← lowerOption { here with scope } t yes
    let (t, scope) := t.push here.scope .hoisted
    let (noCode, t) ← lowerOption { here with scope } t no
    return (code ++ here.emit [.ifTrue] ++ yesCode ++ here.emit [.orElse] ++ noCode
      ++ here.emit [.endBlock .cond], t)
  | .loop test body => do
    let (t, scope) := t.push here.scope .hoisted
    let inside : Place := { here with scope, inLoop := true }
    let (testCode, t) ← lower inside t test
    let (bodyCode, t) ← lowerStatements inside t body
    return (here.emit [.whileTrue] ++ testCode ++ inside.emit [.loopBody] ++ bodyCode
      ++ here.emit [.endBlock .loop, .pushNil], t)
  | .conj left right => do
    let (code, t) ← lower here t left
    let (t, scope) := t.push here.scope .hoisted
    let inside : Place := { here with scope }
    let (rightCode, t) ← lower inside t right
    return (code ++ here.emit [.dup, .ifTrue] ++ inside.emit [.pop] ++ rightCode
      ++ here.emit [.orElse, .endBlock .cond], t)
  | .disj left right => do
    let (code, t) ← lower here t left
    let (t, scope) := t.push here.scope .hoisted
    let inside : Place := { here with scope }
    let (rightCode, t) ← lower inside t right
    return (code ++ here.emit [.dup, .ifTrue, .orElse] ++ inside.emit [.pop] ++ rightCode
      ++ here.emit [.endBlock .cond], t)
  | .neg operand => do
    let (code, t) ← lower here t operand
    return (code ++ here.emit [.ifTrue, .pushFalse, .orElse, .pushTrue, .endBlock .cond], t)
  | .seq items => lowerBody here t items
  | .ret value => do
    if here.body = .block then throw .returnInBlock
    let (code, t) ← lowerOption here t value
    return (code ++ here.emit [.ret, .pushNil], t)
  | .brk =>
    if here.inLoop then .ok (here.emit [.breakOut, .pushNil], t)
    else .error (if here.body = .block then .breakInBlock else .breakOutsideLoop)
  | .next value =>
    if here.inLoop then do
      let (code, t) ← lowerDropped here t value
      return (code ++ here.emit [.next false, .pushNil], t)
    else if here.body = .block then do
      let (code, t) ← lowerOption here t value
      return (code ++ here.emit [.next true, .pushNil], t)
    else .error .nextOutsideLoop
  | .method name params body => do
    let (t, scope) := t.push here.scope .method
    let inside : Place := { scope, body := .method }
    let (binding, t) := bindParams inside 0 params t
    let (inner, t) ← lowerBody inside t body
    return (here.emit [.defineMethod name scope]
      ++ inside.emit [.checkArgs params.length.toUInt64] ++ binding ++ inner
      ++ here.emit [.endBlock .method], t)

/-- The code of an expression that may be missing: nil then. -/
def lowerOption (here : Place) (t : ScopeTree) : Option Expr → Lowered
  | none => .ok (here.emit [.pushNil], t)
  | some e => lower here t e

/-- The code of an expression that may be missing and whose value is not needed. -/
def lowerDropped (here : Place) (t : ScopeTree) : Option Expr → Lowered
  | none => .ok ([], t)
  | some e => do
    let (code, t) ← lower here t e
    return (code ++ here.emit [.pop], t)

/-- The code of the receiver of a call, and whether it leaves one. -/
def lowerReceiver (here : Place) (t : ScopeTree) :
    Option Expr → Except LowerError (List Instruction × Bool × ScopeTree)
  | none | some .self => .ok ([], false, t)
  | some e => do
    let (code, t) ← lower here t e
    return (code, true, t)

/-- The code of expressions that each leave their value. -/
def lowerAll (here : Place) (t : ScopeTree) : List Expr → Lowered
  | [] => .ok ([], t)
  | e :: rest => do
    let (code, t) ← lower here t e
    let (more, t) ← lowerAll here t rest
    return (code ++ more, t)

/-- The code of expressions none of which leaves its value. -/
def lowerStatements (here : Place) (t : ScopeTree) : List Expr → Lowered
  | [] => .ok ([], t)
  | e :: rest => do
    let (code, t) ← lower here t e
    let (more, t) ← lowerStatements here t rest
    return (code ++ here.emit [.pop] ++ more, t)

/-- The code of a sequence, which leaves the value of its last expression, and nil when it is
empty. -/
def lowerBody (here : Place) (t : ScopeTree) : List Expr → Lowered
  | [] => .ok (here.emit [.pushNil], t)
  | [e] => lower here t e
  | e :: rest => do
    let (code, t) ← lower here t e
    let (more, t) ← lowerBody here t rest
    return (code ++ here.emit [.pop] ++ more, t)

end

/-- The program of an expression. Its value stays on the operand stack when it is used, and is
dropped otherwise. -/
def toProgram (e : Expr) (used : Bool) : Except LowerError Program := do
  let top : Place := {}
  let (code, scopes) ← lower top .initial e
  return { code := code ++ if used then [] else top.emit [.pop], scopes }

end Expr

end StackCode
