import StackCode.CUnit.Basic
import StackCode.Proofs.Evaluator

/-!
# The meaning of units of C

What a unit does when its top level is called. Statements mean what they mean in C: a temp lives
until the end of the braces in which it is declared, `break` and `continue` act on the innermost
loop, and `return` leaves the function. The functions of the support code do what the operations of
the machine do that they stand for.

What has no meaning in C stops the execution (`Interrupt.undefined`): a temp that is not declared,
or is declared where it can be seen already, an index beyond the end of a table, a function that the
unit does not have, and a function that comes to its end without a return.

A call may be nested in another one only so deep. The recursion is on how much deeper calls may go
and then on the statement, so that fuel bounds the rounds of loops and nothing else.
-/

namespace StackCode

/-- The function with this name. -/
def CUnit.function? (u : CUnit) (name : CUnit.FunctionName) : Option CUnit.Function :=
  u.functions.find? (·.name = name)

namespace Native

open CUnit (Atom Operand Storage FunctionName Function Rhs Stmt)
open Machine (ProcId)

/-! ## The state of an execution -/

/-- The variables of one call, by slot. -/
structure Slots where
  /-- For a block, the variables of the call that captured it. -/
  parent : Option EnvId
  vars : Array Value
deriving Repr

/-- A captured block. -/
structure Captured where
  function : FunctionName
  env : EnvId
  self : Value
  block : Option ProcId
deriving Repr

/-- What is known of a method. -/
structure Entry where
  function : FunctionName
  selfOnly : Bool
deriving Repr

/-- The temps that can be seen, with their values. -/
abbrev Temps := Nat → Option Value

/-- What an execution changes. Methods and globals stand at the numbers of their names. -/
structure Memory where
  methods : Array (Option Entry)
  globals : Array Value
  /-- The visibility that methods get. -/
  visibility : Visibility := .selfOnly
  envs : Array Slots := #[]
  closures : Array Captured := #[]
  output : Machine.Output := {}
  /-- The temps of the current call. -/
  temps : Temps := fun _ => none

/-- Why an execution stops. -/
inductive Interrupt where
  /-- The program asked to stop. -/
  | exited
  | raised (e : Exception)
  | outputFull
  /-- What is asked for has no meaning in C. -/
  | undefined
  | outOfFuel

instance : Fuelled Interrupt := ⟨.outOfFuel⟩

/-- A computation of a unit. What it changed before it stopped stays changed. -/
abbrev Compute := EStateM Interrupt Memory

/-- How a statement ends. -/
inductive Flow where
  /-- The next statement follows. -/
  | next
  | breakLoop
  | continueLoop
  | ret (v : Value)
deriving DecidableEq, Repr

/-- The call that a statement is executed in. -/
structure Context where
  self : Value
  args : List Value
  block : Option ProcId
  env : EnvId
deriving Repr

/-- A call that is to be made. -/
structure Invocation where
  function : FunctionName
  self : Value
  args : List Value
  block : Option ProcId
  /-- For a block, the variables of the call that captured it. -/
  parent : Option EnvId
deriving Repr

/-- Stops with an exception of the program. -/
def raise {α : Type} (e : Exception) : Compute α := throw (.raised e)

/-- Takes a value that has to be there. -/
def defined {α : Type} : Option α → Compute α
  | some a => pure a
  | none => throw .undefined

/-- Writes a text. -/
def write (text : String) : Compute Unit := fun m =>
  let m' := { m with output := m.output.put text }
  if m.output.takes text then .ok () m' else .error .outputFull m'

/-! ## Temps -/

namespace Temps

/-- The temps when `t` has the value `v`. -/
def set (temps : Temps) (t : Nat) (v : Value) : Temps := fun n =>
  if n = t then some v else temps n

/-- What is left of temps at the end of braces, before which those of `outer` could be seen. -/
def leaving (temps outer : Temps) : Temps := fun n => (outer n).bind fun _ => temps n

end Temps

/-- Declares a temp. -/
def declare (t : Nat) (v : Value) : Compute Unit := do
  if ((← get).temps t).isSome then throw .undefined
  modify fun m => { m with temps := m.temps.set t v }

/-- Assigns a temp. -/
def assign (t : Nat) (v : Value) : Compute Unit := do
  if ((← get).temps t).isNone then throw .undefined
  modify fun m => { m with temps := m.temps.set t v }

/-- The end of braces. -/
def closeBraces {α : Type} (outer : Temps) :
    EStateM.Result Interrupt Memory α → EStateM.Result Interrupt Memory α
  | .ok a m => .ok a { m with temps := m.temps.leaving outer }
  | .error e m => .error e m

/-- A computation inside braces. -/
def braces {α : Type} (inside : Compute α) : Compute α := do
  let outer := (← get).temps
  fun m => closeBraces outer (inside m)

/-! ## Variables -/

/-- The variables that are `depth` steps out. -/
def Memory.owner (m : Memory) (env : EnvId) : Nat → Option EnvId
  | 0 => some env
  | depth + 1 => do
    let own ← m.envs[env.index]?
    let parent ← own.parent
    m.owner parent depth

/-- The value of a variable. -/
def Memory.load? (m : Memory) (env : EnvId) : Storage → Option Value
  | .local depth slot _ => do
    let owner ← m.owner env depth
    let own ← m.envs[owner.index]?
    own.vars[slot.toNat]?
  | .global name => m.globals[name.index]?

/-- Changes a variable. -/
def Memory.store? (m : Memory) (env : EnvId) (v : Value) : Storage → Option Memory
  | .local depth slot _ => do
    let owner ← m.owner env depth
    let own ← m.envs[owner.index]?
    let _ ← own.vars[slot.toNat]?
    let own := { own with vars := own.vars.setIfInBounds slot.toNat v }
    return { m with envs := m.envs.setIfInBounds owner.index own }
  | .global name => do
    let _ ← m.globals[name.index]?
    return { m with globals := m.globals.setIfInBounds name.index v }

/-! ## Messages -/

/-- Sends a message: to a built-in method, to a method of the program, or to one of the two that
print. -/
def send (u : CUnit) (call : Invocation → Compute Value) (target : Value) (explicit : Bool)
    (message : Nat) (args : List Value) (block : Option ProcId) : Compute Value := do
  let name ← defined u.symbols[message]?
  match Builtin.call? target name args with
  | some (.ok v) => return v
  | some (.error e) => raise e
  | none =>
    match ← defined (← get).methods[message]? with
    | some m =>
      if m.selfOnly && explicit then raise (.privateMethod name target)
      else call { function := m.function, self := target, args, block, parent := none }
    | none =>
      match explicit, name with
      | false, "puts" =>
        if args.isEmpty then write "\n" else args.forM fun v => write v.line
        return .nil
      | false, "print" => args.forM fun v => write v.text; return .nil
      | _, _ => raise (.noMethod name target)

/-- Calls the block of the current call. -/
def yield (call : Invocation → Compute Value) (block : Option ProcId) (args : List Value) :
    Compute Value := do
  match block with
  | none => raise .noBlock
  | some id =>
    let c ← defined (← get).closures[id]?
    call { function := c.function, self := c.self, args, block := c.block, parent := some c.env }

/-! ## Statements -/

/-- The block that a value is. -/
def asBlock : Value → Option ProcId
  | .proc id => some id
  | _ => none

/-- What the end of a round means: the loop goes on, or it ends. -/
def endRound : Flow → Option Flow
  | .next | .continueLoop => none
  | .breakLoop => some .next
  | .ret v => some (.ret v)

section

variable (u : CUnit) (fuel : Nat) (call : Invocation → Compute Value) (cx : Context)

/-- The value of an atom. -/
def atom? : Atom → Option Value
  | .int n => some (.int n)
  | .str s => u.strings[s.index]?.map .str
  | .sym s => u.symbols[s.index]?.map .sym
  | .nil => some .nil
  | .bool b => some (.bool b)
  | .self => some cx.self
  | .arg index => some (cx.args[index.toNat]?.getD .nil)
  | .verbatim _ => none

/-- The value of an operand. -/
def operand? (temps : Temps) : Operand → Option Value
  | .literal a => atom? u cx a
  | .temp t => temps t

/-- Reads an operand. -/
def operand (o : Operand) : Compute Value := do
  defined (operand? u cx (← get).temps o)

/-- Reads operands. -/
def operands (os : List Operand) : Compute (List Value) := do
  defined (os.mapM (operand? u cx (← get).temps))

/-- Reads an operand that may be missing. -/
def operandOr (other : Value) : Option Operand → Compute Value
  | some o => operand u cx o
  | none => return other

/-- Computes a value. -/
def compute : Rhs → Compute Value
  | .load place => do defined ((← get).load? cx.env place)
  | .send receiver message args block => do
    let target ← operandOr u cx cx.self receiver
    let values ← operands u cx args
    let block ← operandOr u cx .nil block
    send u call target receiver.isSome message.index values (asBlock block)
  | .yield args => do yield call cx.block (← operands u cx args)
  | .closure function => do
    let id := (← get).closures.size
    let closure : Captured := { function, env := cx.env, self := cx.self, block := cx.block }
    modify fun m => { m with closures := m.closures.push closure }
    return .proc id
  | .verbatim _ => throw .undefined

/-- Does something, after which the next statement follows. -/
def andNext (act : Compute Unit) : Compute Flow := do
  act
  return .next

/-- One round of a loop: nothing when there is to be another one. -/
def round (test : Compute Flow) (condition : Compute Value) (body : Compute Flow) :
    Compute (Option Flow) :=
  braces do
    match ← test with
    | .next => if (← condition).isTruthy then return endRound (← body) else return some .next
    | other => return endRound other

mutual

/-- Executes a statement. -/
def exec : Stmt → Compute Flow
  | .declare t value => andNext do declare t (← compute u call cx value)
  | .eval value => andNext do let _ ← compute u call cx value
  | .declareNil t => andNext (declare t .nil)
  | .assign t o => andNext do assign t (← operand u cx o)
  | .store place o => andNext do
    let v ← operand u cx o
    set (← defined ((← get).store? cx.env v place))
  | .checkArgs expected => andNext do
    if cx.args.length ≠ expected.toNat then raise (.wrongArity cx.args.length expected.toNat)
  | .defineMethod name function => andNext do
    let m ← get
    let _ ← defined m.methods[name.index]?
    let entry : Entry := { function, selfOnly := m.visibility = .selfOnly }
    set { m with methods := m.methods.setIfInBounds name.index (some entry) }
  | .ifElse condition yes no => do
    if (← operand u cx condition).isTruthy then braces (execAll yes) else braces (execAll no)
  | .loop test condition body =>
    rounds (round (execAll test) (operand u cx condition) (execAll body)) fuel
  | .ret o => do return .ret (← operand u cx o)
  | .breakLoop => return .breakLoop
  | .continueLoop => return .continueLoop
  | .exit => throw .exited
  | .setVisibility visibility => andNext (modify fun m => { m with visibility })
  | .verbatim _ | .indented _ => throw .undefined

/-- Executes statements until one does not go on to the next. -/
def execAll : List Stmt → Compute Flow
  | [] => return .next
  | s :: rest => do
    match ← exec s with
    | .next => execAll rest
    | other => return other

end

end

/-! ## Calls -/

/-- What the end of a function's body means for the call, in which the temps of the caller can be
seen again. -/
def returned (temps : Temps) :
    EStateM.Result Interrupt Memory Flow → EStateM.Result Interrupt Memory Value
  | .ok (.ret v) m => .ok v { m with temps }
  | .ok _ m => .error .undefined m
  | .error e m => .error e m

/-- The memory at the start of a call of a function that has `size` variables. -/
def Memory.entered (m : Memory) (parent : Option EnvId) (size : Nat) : Memory :=
  { m with envs := m.envs.push { parent, vars := .replicate size .nil }, temps := fun _ => none }

/-- The context of a call, when its variables have the number `env`. -/
def Invocation.context (i : Invocation) (env : EnvId) : Context :=
  { self := i.self, args := i.args, block := i.block, env }

/-- Calls a function. -/
def enter (u : CUnit) (fuel : Nat) (call : Invocation → Compute Value) (f : Function)
    (i : Invocation) : Compute Value := do
  let outer ← get
  set (outer.entered i.parent f.envSize)
  fun m => returned outer.temps (execAll u fuel call (i.context ⟨outer.envs.size⟩) f.body m)

/-- Makes a call, inside which calls may be nested only so deep. -/
def invoke (u : CUnit) (fuel : Nat) : Nat → Invocation → Compute Value
  | 0, _ => raise .stackTooDeep
  | depth + 1, i => do enter u fuel (invoke u fuel depth) (← defined (u.function? i.function)) i

/-! ## Units -/

/-- How the execution of a unit ends. -/
inductive Outcome where
  | returned (v : Value)
  | exited
  | raised (e : Exception)
  | outputFull
  | undefined
deriving DecidableEq, Repr

/-- What the result of an execution says; nothing when the fuel was used up. -/
def outcome? : EStateM.Result Interrupt Memory Value → Option (Outcome × Machine.Output)
  | .ok v m => some (.returned v, m.output)
  | .error .exited m => some (.exited, m.output)
  | .error (.raised e) m => some (.raised e, m.output)
  | .error .outputFull m => some (.outputFull, m.output)
  | .error .undefined m => some (.undefined, m.output)
  | .error .outOfFuel _ => none

/-- A unit has no outcome only for want of fuel. -/
theorem outcome?_eq_none_iff {r : EStateM.Result Interrupt Memory Value} :
    outcome? r = none ↔ RanOut r := by
  rcases r with ⟨v, m⟩ | ⟨_ | e | _ | _ | _, m⟩
  case error.outOfFuel => exact iff_of_true rfl ⟨m, rfl⟩
  case ok => exact iff_of_false (by nofun) (not_ranOut_ok v m)
  all_goals exact iff_of_false (by nofun) (mt ranOut_error_iff.mp (by nofun))

/-- The memory in which a unit starts: its tables have a place for every symbol, and one more. -/
def Memory.initial (u : CUnit) (room : Option Nat) : Memory :=
  { methods := .replicate (u.symbols.length + 1) none
    globals := .replicate (u.symbols.length + 1) .nil
    output := { room } }

/-- The call of the top level. -/
def topInvocation : Invocation :=
  { function := .main, self := .main, args := [], block := none, parent := none }

/-- Calls the top level of a unit. -/
def main (u : CUnit) (fuel : Nat) : Compute Value :=
  enter u fuel (invoke u fuel u.maxCallDepth) u.main topInvocation

end Native

/-- Calls the top level of a unit in a fresh memory; gives the outcome and what has been written,
unless the fuel is used up. -/
def CUnit.executeWithin (fuel : Nat) (room : Option Nat) (u : CUnit) :
    Option (Native.Outcome × Machine.Output) :=
  Native.outcome? (Native.main u fuel (.initial u room))

namespace Native

open CUnit (Operand Rhs Stmt Function)

/-! ## More fuel -/

/-- Leaving braces uses no fuel. -/
theorem ranOut_closeBraces_iff {α : Type} {outer : Temps}
    {r : EStateM.Result Interrupt Memory α} : RanOut (closeBraces outer r) ↔ RanOut r := by
  rcases r with ⟨a, m⟩ | ⟨e, m⟩
  · exact iff_of_false (not_ranOut_ok a _) (not_ranOut_ok a m)
  · exact .rfl

theorem ranOut_returned_iff {temps : Temps} {r : EStateM.Result Interrupt Memory Flow} :
    RanOut (returned temps r) ↔ RanOut r := by
  rcases r with ⟨_ | _ | _ | v, m⟩ | ⟨e, m⟩
  case ok.ret => exact iff_of_false (not_ranOut_ok v _) (not_ranOut_ok _ m)
  case error => rw [returned, ranOut_error_iff, ranOut_error_iff]
  all_goals exact iff_of_false (mt ranOut_error_iff.mp (by nofun)) (not_ranOut_ok _ m)

variable {u : CUnit} {fuel fuel' : Nat} {call call' : Invocation → Compute Value} {cx : Context}

/-- Braces improve with what is inside. -/
theorem improves_braces {α : Type} {m m' : Compute α} (h : Improves m m') :
    Improves (braces m) (braces m') :=
  (improves_refl _).bind fun _ => h.mapResult fun _ => ranOut_closeBraces_iff.mpr

/-- A round improves with its test and its body. -/
theorem improves_round {test test' body body' : Compute Flow} (ht : Improves test test')
    (condition : Compute Value) (hb : Improves body body') :
    Improves (round test condition body) (round test' condition body') := by
  refine improves_braces (ht.bind fun flow => ?_)
  cases flow with
  | next =>
    refine (improves_refl _).bind fun v => ?_
    split
    · exact hb.bind fun _ => improves_refl _
    · exact improves_refl _
  | _ => exact improves_refl _

section

variable (h : ∀ i, Improves (call i) (call' i))

include h

/-- A message improves with the calls that it makes. -/
theorem improves_send (target : Value) (explicit : Bool) (message : Nat) (args : List Value)
    (block : Option Machine.ProcId) : Improves (send u call target explicit message args block)
      (send u call' target explicit message args block) := by
  refine (improves_refl _).bind fun name => ?_
  split
  · exact improves_refl _
  · exact improves_refl _
  · refine (improves_refl _).bind fun m => (improves_refl _).bind fun entry => ?_
    split
    · split
      · exact improves_refl _
      · exact h _
    · exact improves_refl _

theorem improves_yield (block : Option Machine.ProcId) (args : List Value) :
    Improves (yield call block args) (yield call' block args) := by
  unfold yield
  split
  · exact improves_refl _
  · exact (improves_refl _).bind fun _ => (improves_refl _).bind fun _ => h _

theorem improves_compute (value : Rhs) :
    Improves (compute u call cx value) (compute u call' cx value) := by
  cases value with
  | send receiver message args block =>
    exact (improves_refl _).bind fun _ => (improves_refl _).bind fun _ =>
      (improves_refl _).bind fun _ => improves_send h _ _ _ _ _
  | yield args => exact (improves_refl _).bind fun _ => improves_yield h _ _
  | _ => exact improves_refl _

end

mutual

/-- More fuel, and calls that come to more, do not change what a statement does. -/
theorem improves_exec (h : ∀ i, Improves (call i) (call' i)) (hfuel : fuel ≤ fuel') (s : Stmt) :
    Improves (exec u fuel call cx s) (exec u fuel' call' cx s) := by
  cases s with
  | declare t value =>
    simp only [exec]
    exact ((improves_compute h value).bind fun _ => improves_refl _).bind fun _ => improves_refl _
  | eval value =>
    simp only [exec]
    exact ((improves_compute h value).bind fun _ => improves_refl _).bind fun _ => improves_refl _
  | ifElse condition yes no =>
    simp only [exec]
    refine (improves_refl _).bind fun v => ?_
    split
    · exact improves_braces (improves_execAll h hfuel yes)
    · exact improves_braces (improves_execAll h hfuel no)
  | loop test condition body =>
    simp only [exec]
    exact improves_rounds
      (improves_round (improves_execAll h hfuel test) _ (improves_execAll h hfuel body)) hfuel
  | _ =>
    simp only [exec]
    exact improves_refl _

/-- Statements improve one by one. -/
theorem improves_execAll (h : ∀ i, Improves (call i) (call' i)) (hfuel : fuel ≤ fuel')
    (stmts : List Stmt) :
    Improves (execAll u fuel call cx stmts) (execAll u fuel' call' cx stmts) := by
  cases stmts with
  | nil =>
    simp only [execAll]
    exact improves_refl _
  | cons s rest =>
    simp only [execAll]
    refine (improves_exec h hfuel s).bind fun flow => ?_
    cases flow with
    | next => exact improves_execAll h hfuel rest
    | _ => exact improves_refl _

end

/-- A call improves with the body of its function. -/
theorem improves_enter (h : ∀ i, Improves (call i) (call' i)) (hfuel : fuel ≤ fuel')
    (f : Function) (i : Invocation) :
    Improves (enter u fuel call f i) (enter u fuel' call' f i) :=
  (improves_refl _).bind fun _ => (improves_refl _).bind fun _ =>
    (improves_execAll h hfuel f.body).mapResult fun _ => ranOut_returned_iff.mpr

/-- **More fuel does not change what a call comes to.** -/
theorem improves_invoke (hfuel : fuel ≤ fuel') (depth : Nat) (i : Invocation) :
    Improves (invoke u fuel depth i) (invoke u fuel' depth i) := by
  induction depth generalizing i with
  | zero => exact improves_refl _
  | succ depth ih => exact (improves_refl _).bind fun f => improves_enter ih hfuel f i

theorem steady_invoke (u : CUnit) (depth : Nat) (i : Invocation) :
    Steady fun n => invoke u n depth i :=
  fun n => improves_invoke (Nat.le_succ n) depth i

theorem steady_exec (u : CUnit) (depth : Nat) (cx : Context) (s : Stmt) :
    Steady fun n => exec u n (invoke u n depth) cx s :=
  fun n => improves_exec (fun i => steady_invoke u depth i n) (Nat.le_succ n) s

theorem steady_execAll (u : CUnit) (depth : Nat) (cx : Context) (stmts : List Stmt) :
    Steady fun n => execAll u n (invoke u n depth) cx stmts :=
  fun n => improves_execAll (fun i => steady_invoke u depth i n) (Nat.le_succ n) stmts

theorem steady_main (u : CUnit) : Steady fun n => main u n :=
  fun n => improves_enter (fun i => steady_invoke u u.maxCallDepth i n) (Nat.le_succ n) _ _

end Native

end StackCode
