import StackCode.Expr.Basic
import StackCode.Machine.Builtin
import StackCode.Machine.State
import StackCode.Proofs.Limit

/-!
# The meaning of expressions

An evaluator that works on expressions directly: no code, no operand stack and no scope tree.

* Which variables can be seen is read off the text: `Names` holds the names that each body around
  has declared so far, and an assignment declares its name from there on.
* `break`, `next`, `return` and `exit` are signals that leave what they stand in, until a loop, a
  call or the program takes them up.
* A call may be nested in another one only so deep. The recursion is on how much deeper calls may
  go and then on the expression, so that fuel bounds the rounds of loops and nothing else.
-/

namespace StackCode

/-! ## Output -/

namespace Machine.Output

/-- Whether there is room for all of a text. -/
def takes (o : Output) (text : String) : Bool :=
  match o.room with
  | none => true
  | some room => text.toUTF8.data.size ≤ room

/-- The output after a text, or after as much of it as there is room for. -/
def put (o : Output) (text : String) : Output :=
  match o.room with
  | none => { o with written := o.written ++ text.toUTF8.data }
  | some room =>
    { written := o.written ++ text.toUTF8.data.take room
      room := some (room - text.toUTF8.data.size) }

end Machine.Output

/-- The value on a line of its own; a text that ends a line itself gets no second end. -/
def Value.line (v : Value) : String :=
  if v.text.toList.getLast? = some '\n' then v.text else v.text ++ "\n"

/-! ## Names -/

/-- The names that are declared in the bodies around, the innermost first. -/
abbrev Names := List (List String)

namespace Names

/-- How many bodies further out `name` is declared. -/
def level? (names : Names) (name : String) : Option Nat := names.findIdx? (·.contains name)

/-- Declares a name that cannot be seen, in the innermost body. -/
def declare (names : Names) (name : String) : Names :=
  match names.level? name, names with
  | none, inner :: outer => (name :: inner) :: outer
  | _, _ => names

/-- Declares one name after another. -/
def declareAll (names : Names) (more : List String) : Names := more.foldl declare names

end Names

namespace Expr

mutual

/-- The names that the expression assigns to in its own body, in the order of the text. -/
def assigned : Expr → List String
  | assign name value => name :: assigned value
  | gassign _ value => assigned value
  | call receiver _ args => assignedOption receiver ++ assignedAll args
  | iter receiver _ args _ _ => assignedOption receiver ++ assignedAll args
  | yield args => assignedAll args
  | cond test yes no => assigned test ++ assignedOption yes ++ assignedOption no
  | loop test body => assigned test ++ assignedAll body
  | conj left right => assigned left ++ assigned right
  | disj left right => assigned left ++ assigned right
  | neg operand => assigned operand
  | seq items => assignedAll items
  | ret value => assignedOption value
  | next value => assignedOption value
  | _ => []

/-- The names that an expression assigns to, if there is one. -/
def assignedOption : Option Expr → List String
  | none => []
  | some e => assigned e

/-- The names that expressions assign to. -/
def assignedAll : List Expr → List String
  | [] => []
  | e :: rest => assigned e ++ assignedAll rest

end

end Expr

namespace Eval

/-! ## The state of an evaluation -/

/-- A method of the program. -/
structure Method where
  params : List String
  body : List Expr
  /-- Whether it can be called on the current receiver only. -/
  selfOnly : Bool

/-- The variables of one call. -/
structure Locals where
  values : Table Value := .empty
  /-- For a block, the variables of the call in which it was written. -/
  parent : Option Nat := none

/-- A block, with what it was written in: the names that were declared, the receiver, the block and
the variables of that call. -/
inductive Block where
  | mk (params : List String) (body : List Expr) (names : Names) (self : Value)
      (block : Option Block) (locals : Nat)

/-- What an evaluation changes. -/
structure World where
  methods : Table Method := .empty
  globals : Table Value := .empty
  /-- The visibility that methods get. -/
  visibility : Visibility := .selfOnly
  /-- The variables of all calls so far. -/
  locals : Array Locals := #[]
  output : Machine.Output := {}

/-- The call that an expression is evaluated in. -/
structure Context where
  self : Value
  block : Option Block
  /-- The number of its variables. -/
  locals : Nat

/-- Why an evaluation stops before there is a value. -/
inductive Interrupt where
  | signal (s : Signal)
  | raised (e : Exception)
  | outputFull
  | outOfFuel

instance : Fuelled Interrupt := ⟨.outOfFuel⟩

/-- A computation of the evaluator. What it changed before it stopped stays changed. -/
abbrev Compute := EStateM Interrupt World

/-- Stops with an exception of the program. -/
def raise {α : Type} (e : Exception) : Compute α := throw (.raised e)

/-- Stops with a signal. -/
def leave {α : Type} (s : Signal) : Compute α := throw (.signal s)

/-- Takes up the signals that have an answer. -/
def caught {α : Type} (answer : Signal → Option α) :
    EStateM.Result Interrupt World α → EStateM.Result Interrupt World α
  | .error (.signal s) w =>
    match answer s with
    | some a => .ok a w
    | none => .error (.signal s) w
  | r => r

/-- A computation some of whose signals are taken up. -/
def catching {α : Type} (answer : Signal → Option α) (m : Compute α) : Compute α := fun w =>
  caught answer (m w)

/-- Writes a text. -/
def write (text : String) : Compute Unit := fun w =>
  let w' := { w with output := w.output.put text }
  if w.output.takes text then .ok () w' else .error .outputFull w'

/-! ## Variables -/

/-- The variables of the call that is `level` bodies further out than those of `locals`. -/
def World.holder (w : World) (locals : Nat) : Nat → Option Nat
  | 0 => some locals
  | level + 1 => do
    let own ← w.locals[locals]?
    let parent ← own.parent
    w.holder parent level

/-- The value of a variable, nil before its first assignment. -/
def World.read (w : World) (locals level : Nat) (name : String) : Value :=
  let value? := do
    let holder ← w.holder locals level
    let own ← w.locals[holder]?
    own.values.get? name
  value?.getD .nil

/-- Changes a variable. -/
def World.assign (w : World) (locals level : Nat) (name : String) (v : Value) : World :=
  match w.holder locals level with
  | some holder =>
    { w with locals := w.locals.modify holder fun own =>
        { own with values := own.values.insert name v } }
  | none => w

/-- The parameters of a body with their arguments, nil where one is missing. -/
def bindParams : List String → List Value → Table Value → Table Value
  | [], _, values => values
  | name :: rest, args, values => bindParams rest args.tail (values.insert name (args.headD .nil))

/-! ## Calls -/

/-- A call that is to be made. -/
structure Invocation where
  isBlock : Bool
  params : List String
  args : List Value
  body : List Expr
  /-- The names that can be seen inside. -/
  names : Names
  self : Value
  block : Option Block
  parent : Option Nat

/-- The call of a method. -/
def Method.invocation (m : Method) (self : Value) (args : List Value) (block : Option Block) :
    Invocation :=
  { isBlock := false, params := m.params, args, body := m.body, names := [m.params], self, block,
    parent := none }

/-- The call of a block. -/
def Block.invocation (args : List Value) : Block → Invocation
  | .mk params body names self block locals =>
    { isBlock := true, params, args, body, names := params :: names, self, block,
      parent := some locals }

/-- The variables that the call starts with. -/
def Invocation.locals (c : Invocation) : Locals :=
  { values := bindParams c.params c.args .empty, parent := c.parent }

/-- What the expressions of the call are evaluated in, when its variables have the number
`locals`. -/
def Invocation.context (c : Invocation) (locals : Nat) : Context :=
  { self := c.self, block := c.block, locals }

/-- The signal that finishes a call: a method is left with a return, a block with a next. -/
def Invocation.answer (c : Invocation) : Signal → Option Value
  | .ret v => if c.isBlock then none else some v
  | .next (some v) => if c.isBlock then some v else none
  | _ => none

/-- Sends a message: to a built-in method, to a method of the program, or to one of the two that
print. A method that is for the current receiver only has no other one. -/
def send (call : Invocation → Compute Value) (cx : Context) (receiver : Option Value)
    (message : String) (args : List Value) (block : Option Block) : Compute Value := do
  let target := receiver.getD cx.self
  match Builtin.call? target message args with
  | some (.ok v) => return v
  | some (.error e) => raise e
  | none =>
    match (← get).methods.get? message with
    | some m =>
      if m.selfOnly && receiver.isSome then raise (.privateMethod message target)
      else call (m.invocation target args block)
    | none =>
      match receiver, message with
      | none, "puts" =>
        if args.isEmpty then write "\n" else args.forM fun v => write v.line
        return .nil
      | none, "print" => args.forM fun v => write v.text; return .nil
      | _, _ => raise (.noMethod message target)

/-! ## Expressions -/

/-- Whether a call names no receiver but the current one. -/
def isOwn : Option Expr → Bool
  | none | some .self => true
  | _ => false

/-- Changes the visibility that methods get from now on. -/
def setVisibility (visibility : Visibility) : Compute Value := do
  modify fun w => { w with visibility }
  return .nil

/-- What a call does that is no message: it has neither receiver nor arguments. -/
def directive? : String → Option (Compute Value)
  | "exit" => some (leave .halt)
  | "public" => some (setVisibility .everyone)
  | "private" => some (setVisibility .selfOnly)
  | _ => none

/-- What the signals for a loop mean: it ends, or there is another round. -/
def roundAnswer : Signal → Option (Option Value)
  | .breakOut => some (some .nil)
  | .next _ => some none
  | _ => none

/-- One round of a loop: nothing when there is to be another one, and nil at the end. -/
def round (test : Compute Value) (body : Compute Unit) : Compute (Option Value) :=
  catching roundAnswer do
    if (← test).isTruthy then
      body
      return none
    else return some .nil

section

variable (fuel : Nat) (call : Invocation → Compute Value) (cx : Context)

mutual

/-- The value of an expression. -/
def eval (names : Names) : Expr → Compute Value
  | .int n => return .int n
  | .str s => return .str s
  | .sym s => return .sym s
  | .nil => return .nil
  | .bool b => return .bool b
  | .self => return cx.self
  | .var name => do
    match names.level? name with
    | some level => return (← get).read cx.locals level name
    | none => send call cx none name [] none
  | .assign name value => do
    let names := names.declare name
    let v ← eval names value
    modify (·.assign cx.locals ((names.level? name).getD 0) name v)
    return v
  | .gvar name => return ((← get).globals.get? name).getD .nil
  | .gassign name value => do
    let v ← eval names value
    modify fun w => { w with globals := w.globals.insert name v }
    return v
  | .call receiver name args => do
    match if isOwn receiver && args.isEmpty then directive? name else none with
    | some act => act
    | none =>
      let target ← evalReceiver names receiver
      let values ← evalAll (names.declareAll (Expr.assignedOption receiver)) args
      send call cx target name values none
  | .iter receiver name args params body => do
    let target ← evalReceiver names receiver
    let names := names.declareAll (Expr.assignedOption receiver)
    let values ← evalAll names args
    let names := names.declareAll (Expr.assignedAll args)
    send call cx target name values (some (.mk params body names cx.self cx.block cx.locals))
  | .yield args => do
    let values ← evalAll names args
    match cx.block with
    | some block => call (block.invocation values)
    | none => raise .noBlock
  | .cond test yes no => do
    let v ← eval names test
    let names := names.declareAll (Expr.assigned test)
    if v.isTruthy then evalOption names yes
    else evalOption (names.declareAll (Expr.assignedOption yes)) no
  | .loop test body =>
    rounds (round (eval names test)
      (evalStatements (names.declareAll (Expr.assigned test)) body)) fuel
  | .conj left right => do
    let v ← eval names left
    if v.isTruthy then eval (names.declareAll (Expr.assigned left)) right else return v
  | .disj left right => do
    let v ← eval names left
    if v.isTruthy then return v else eval (names.declareAll (Expr.assigned left)) right
  | .neg operand => do return .bool (! (← eval names operand).isTruthy)
  | .seq items => evalBody names items
  | .ret value => do leave (.ret (← evalOption names value))
  | .brk => leave .breakOut
  | .next value => do leave (.next (some (← evalOption names value)))
  | .method name params body => do
    modify fun w =>
      let m : Method := { params, body, selfOnly := w.visibility = .selfOnly }
      { w with methods := w.methods.insert name m }
    return .sym name

/-- The value of an expression that may be missing: nil then. -/
def evalOption (names : Names) : Option Expr → Compute Value
  | none => return .nil
  | some e => eval names e

/-- The value of a receiver other than the current one. -/
def evalReceiver (names : Names) : Option Expr → Compute (Option Value)
  | none => return none
  | some e => if isOwn (some e) then return none else return some (← eval names e)

/-- The values of expressions, from left to right. -/
def evalAll (names : Names) : List Expr → Compute (List Value)
  | [] => return []
  | e :: rest => do
    let v ← eval names e
    let values ← evalAll (names.declareAll (Expr.assigned e)) rest
    return v :: values

/-- Evaluates expressions whose values are not needed. -/
def evalStatements (names : Names) : List Expr → Compute Unit
  | [] => return ()
  | e :: rest => do
    let _ ← eval names e
    evalStatements (names.declareAll (Expr.assigned e)) rest

/-- The value of the last expression of a sequence, nil when it is empty. -/
def evalBody (names : Names) : List Expr → Compute Value
  | [] => return .nil
  | [e] => eval names e
  | e :: rest => do
    let _ ← eval names e
    evalBody (names.declareAll (Expr.assigned e)) rest

end

end

/-- Makes a call, inside which calls may be nested only so deep. A method has to be given as many
arguments as it has parameters. -/
def invoke (fuel : Nat) : Nat → Invocation → Compute Value
  | 0, _ => raise .stackTooDeep
  | depth + 1, c => do
    if !c.isBlock && c.args.length ≠ c.params.length then
      raise (.wrongArity c.args.length c.params.length)
    let locals := (← get).locals.size
    modify fun w => { w with locals := w.locals.push c.locals }
    catching c.answer (evalBody fuel (invoke fuel depth) (c.context locals) c.names c.body)

/-! ## More fuel -/

theorem ranOut_caught_iff {α : Type} {answer : Signal → Option α}
    {r : EStateM.Result Interrupt World α} : RanOut (caught answer r) ↔ RanOut r := by
  rcases r with _ | ⟨e, w⟩
  · exact .rfl
  · cases e with
    | signal s =>
      refine iff_of_false ?_ (mt ranOut_error_iff.mp (by nofun))
      show ¬ RanOut (match answer s with | some a => _ | none => _)
      cases answer s with
      | some a => exact not_ranOut_ok a w
      | none => exact mt ranOut_error_iff.mp (by nofun)
    | _ => exact .rfl

/-- Catching a signal uses no fuel. -/
theorem Improves.catching {α : Type} {m m' : Compute α} (h : Improves m m')
    (answer : Signal → Option α) : Improves (catching answer m) (catching answer m') :=
  h.mapResult fun _ => ranOut_caught_iff.mpr

variable {fuel fuel' : Nat} {call call' : Invocation → Compute Value} {cx : Context}

/-- A message improves with the calls that it makes. -/
theorem improves_evalSend (h : ∀ c, Improves (call c) (call' c)) (receiver : Option Value)
    (message : String) (args : List Value) (block : Option Block) :
    Improves (send call cx receiver message args block)
      (send call' cx receiver message args block) := by
  unfold send
  dsimp only
  split
  · exact improves_refl _
  · exact improves_refl _
  · refine (improves_refl _).bind fun w => ?_
    split
    · split
      · exact improves_refl _
      · exact h _
    · exact improves_refl _

/-- A round improves with its test and its body. -/
theorem improves_round {test test' : Compute Value} {body body' : Compute Unit}
    (ht : Improves test test') (hb : Improves body body') :
    Improves (round test body) (round test' body') := by
  refine Improves.catching (ht.bind fun v => ?_) _
  split
  · exact hb.bind fun _ => improves_refl _
  · exact improves_refl _

mutual

/-- More fuel, and calls that come to more, do not change the value of an expression. -/
theorem improves_eval (h : ∀ c, Improves (call c) (call' c)) (hfuel : fuel ≤ fuel')
    (names : Names) (e : Expr) :
    Improves (eval fuel call cx names e) (eval fuel' call' cx names e) := by
  cases e with
  | int | str | sym | nil | bool | self | gvar | brk | method =>
    simp only [eval]
    exact improves_refl _
  | var name =>
    simp only [eval]
    split
    · exact improves_refl _
    · exact improves_evalSend h _ _ _ _
  | assign name value =>
    simp only [eval]
    exact (improves_eval h hfuel _ value).bind fun _ => improves_refl _
  | gassign name value =>
    simp only [eval]
    exact (improves_eval h hfuel _ value).bind fun _ => improves_refl _
  | call receiver name args =>
    simp only [eval]
    split
    · exact improves_refl _
    · exact (improves_evalReceiver h hfuel _ receiver).bind fun _ =>
        (improves_evalAll h hfuel _ args).bind fun _ => improves_evalSend h _ _ _ _
  | iter receiver name args params body =>
    simp only [eval]
    exact (improves_evalReceiver h hfuel _ receiver).bind fun _ =>
      (improves_evalAll h hfuel _ args).bind fun _ => improves_evalSend h _ _ _ _
  | yield args =>
    simp only [eval]
    refine (improves_evalAll h hfuel _ args).bind fun _ => ?_
    split
    · exact h _
    · exact improves_refl _
  | cond test yes no =>
    simp only [eval]
    refine (improves_eval h hfuel _ test).bind fun v => ?_
    split
    · exact improves_evalOption h hfuel _ yes
    · exact improves_evalOption h hfuel _ no
  | loop test body =>
    simp only [eval]
    exact improves_rounds (improves_round (improves_eval h hfuel _ test) (improves_evalStatements h hfuel _ body))
      hfuel
  | conj left right =>
    simp only [eval]
    refine (improves_eval h hfuel _ left).bind fun v => ?_
    split
    · exact improves_eval h hfuel _ right
    · exact improves_refl _
  | disj left right =>
    simp only [eval]
    refine (improves_eval h hfuel _ left).bind fun v => ?_
    split
    · exact improves_refl _
    · exact improves_eval h hfuel _ right
  | neg operand =>
    simp only [eval]
    exact (improves_eval h hfuel _ operand).bind fun _ => improves_refl _
  | seq items =>
    simp only [eval]
    exact improves_evalBody h hfuel _ items
  | ret value =>
    simp only [eval]
    exact (improves_evalOption h hfuel _ value).bind fun _ => improves_refl _
  | next value =>
    simp only [eval]
    exact (improves_evalOption h hfuel _ value).bind fun _ => improves_refl _

theorem improves_evalOption (h : ∀ c, Improves (call c) (call' c)) (hfuel : fuel ≤ fuel')
    (names : Names) (e : Option Expr) :
    Improves (evalOption fuel call cx names e) (evalOption fuel' call' cx names e) := by
  cases e with
  | none =>
    simp only [evalOption]
    exact improves_refl _
  | some e =>
    simp only [evalOption]
    exact improves_eval h hfuel names e

theorem improves_evalReceiver (h : ∀ c, Improves (call c) (call' c)) (hfuel : fuel ≤ fuel')
    (names : Names) (e : Option Expr) :
    Improves (evalReceiver fuel call cx names e) (evalReceiver fuel' call' cx names e) := by
  cases e with
  | none =>
    simp only [evalReceiver]
    exact improves_refl _
  | some e =>
    simp only [evalReceiver]
    split
    · exact improves_refl _
    · exact (improves_eval h hfuel names e).bind fun _ => improves_refl _

theorem improves_evalAll (h : ∀ c, Improves (call c) (call' c)) (hfuel : fuel ≤ fuel')
    (names : Names) (es : List Expr) :
    Improves (evalAll fuel call cx names es) (evalAll fuel' call' cx names es) := by
  cases es with
  | nil =>
    simp only [evalAll]
    exact improves_refl _
  | cons e rest =>
    simp only [evalAll]
    exact (improves_eval h hfuel names e).bind fun _ => (improves_evalAll h hfuel _ rest).bind fun _ =>
      improves_refl _

theorem improves_evalStatements (h : ∀ c, Improves (call c) (call' c)) (hfuel : fuel ≤ fuel')
    (names : Names) (es : List Expr) :
    Improves (evalStatements fuel call cx names es) (evalStatements fuel' call' cx names es) := by
  cases es with
  | nil =>
    simp only [evalStatements]
    exact improves_refl _
  | cons e rest =>
    simp only [evalStatements]
    exact (improves_eval h hfuel names e).bind fun _ => improves_evalStatements h hfuel _ rest

theorem improves_evalBody (h : ∀ c, Improves (call c) (call' c)) (hfuel : fuel ≤ fuel')
    (names : Names) (es : List Expr) :
    Improves (evalBody fuel call cx names es) (evalBody fuel' call' cx names es) := by
  match es with
  | [] =>
    simp only [evalBody]
    exact improves_refl _
  | [e] =>
    simp only [evalBody]
    exact improves_eval h hfuel names e
  | e :: e' :: rest =>
    simp only [evalBody]
    exact (improves_eval h hfuel names e).bind fun _ => improves_evalBody h hfuel _ (e' :: rest)

end

/-- **More fuel does not change what a call comes to.** -/
theorem improves_invoke (hfuel : fuel ≤ fuel') (depth : Nat) (c : Invocation) :
    Improves (invoke fuel depth c) (invoke fuel' depth c) := by
  induction depth generalizing c with
  | zero => exact improves_refl _
  | succ depth ih =>
    have hbody : ∀ cx : Context, Improves
        (catching c.answer (evalBody fuel (invoke fuel depth) cx c.names c.body))
        (catching c.answer (evalBody fuel' (invoke fuel' depth) cx c.names c.body)) :=
      fun cx => Improves.catching (improves_evalBody ih hfuel c.names c.body) _
    simp only [invoke]
    split
    · exact (improves_refl _).bind fun _ => (improves_refl _).bind fun _ =>
        (improves_refl _).bind fun _ => hbody _
    · exact (improves_refl _).bind fun _ => (improves_refl _).bind fun _ => hbody _

/-! ## Programs -/

/-- How a program ends. -/
inductive Outcome where
  /-- It came to its end with this value. -/
  | finished (v : Value)
  /-- It returned. -/
  | returned (v : Value)
  | halted
  | raised (e : Exception)
  | outputFull
  /-- It left a loop or a block in which it was not. -/
  | strayed
deriving DecidableEq, Repr

/-- What the result of an evaluation says about the program; nothing when the fuel was used up. -/
def outcome? : EStateM.Result Interrupt World Value → Option (Outcome × Machine.Output)
  | .ok v w => some (.finished v, w.output)
  | .error (.signal (.ret v)) w => some (.returned v, w.output)
  | .error (.signal .halt) w => some (.halted, w.output)
  | .error (.signal _) w => some (.strayed, w.output)
  | .error (.raised e) w => some (.raised e, w.output)
  | .error .outputFull w => some (.outputFull, w.output)
  | .error .outOfFuel _ => none

/-- A program has no outcome only for want of fuel. -/
theorem outcome?_eq_none_iff {r : EStateM.Result Interrupt World Value} :
    outcome? r = none ↔ RanOut r := by
  rcases r with ⟨v, w⟩ | ⟨⟨_ | _ | _ | _⟩ | e | _ | _, w⟩
  case error.outOfFuel => exact iff_of_true rfl ⟨w, rfl⟩
  case ok => exact iff_of_false (by nofun) (not_ranOut_ok v w)
  all_goals exact iff_of_false (by nofun) (mt ranOut_error_iff.mp (by nofun))

/-- What the expressions of a program are evaluated in, outside of all methods. -/
def topContext : Context := { self := .main, block := none, locals := 0 }

/-- The state in which the evaluation of a program starts. -/
def World.initial (room : Option Nat) : World := { locals := #[{}], output := { room } }

end Eval

/-- Evaluates a program in which calls may be nested `depth` deep; gives its outcome and what it has
written, unless the fuel is used up. -/
def Expr.evaluateWithin (fuel depth : Nat) (room : Option Nat) (e : Expr) :
    Option (Eval.Outcome × Machine.Output) :=
  Eval.outcome?
    (Eval.eval fuel (Eval.invoke fuel depth) Eval.topContext [[]] e (.initial room))

end StackCode
