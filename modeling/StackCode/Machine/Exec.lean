import StackCode.Machine.Builtin
import StackCode.Machine.State

/-!
# Running code

Code runs segment by segment: branches, loops and bodies are cut out when the instruction that opens
them runs. A segment ends by itself or with a signal, which the loop, method, block or program
around it takes up.

`exec` is bounded by fuel. Running code, the rounds of a loop and calls inside calls use it up; a
computation that has none left stops with `Stop.outOfFuel`, which is no fault of the program.
-/

namespace StackCode.Machine

/-- How a segment ended: the signal, if there was one, and the index after the last instruction that
was passed. -/
abbrev Ended := Option Signal × Nat

/-- How a call ended. -/
inductive Completion where
  | value (v : Value)
  | halt
deriving DecidableEq, Repr

/-! ## Loops -/

/-- Runs a loop, at most `n` rounds of it. Every round starts with the stack cut down to `base`. -/
def loop (run : Segment → Exec Ended) (test body : Segment) (index base : Nat) :
    Nat → Exec (Option Signal)
  | 0 => throw .outOfFuel
  | n + 1 => do
    match (← run test).1 with
    | some .breakOut => truncate base; return none
    | some (.next none) => truncate base; loop run test body index base n
    | some other => return some other
    | none =>
      if (← pop index).isTruthy then
        match (← run body).1 with
        | some .breakOut => truncate base; return none
        | none | some (.next none) => truncate base; loop run test body index base n
        | some other => return some other
      else truncate base; return none

/-! ## Calls -/

/-- What the end of a body means for the call. A method takes up a return, a block a next with a
value; when the body ends by itself, its last operand is the value. -/
def complete (isBlock : Bool) : Ended → Exec Completion
  | (none, stop) => return .value (← pop (stop - 1))
  | (some .halt, _) => return .halt
  | (some (.ret v), stop) =>
    if isBlock then malformed (stop - 1) (.escapedBody (.ret v)) else return .value v
  | (some (.next (some v)), stop) =>
    if isBlock then return .value v else malformed (stop - 1) (.escapedBody (.next (some v)))
  | (some other, stop) => malformed (stop - 1) (.escapedBody other)

/-- Notes that an exception leaves a call. -/
def Stop.leave (stop : Stop) (frame : Frame) : Stop :=
  match stop with
  | .fault (.raised e) => .fault (.raised (e.leave ⟨frame.name, frame.callSite⟩))
  | other => other

/-- The state without its current call: the frame goes, and so do the operands above its base. -/
def State.leaveCall (s : State) : State :=
  match s.frames with
  | [] => s
  | f :: rest => { s with frames := rest }.truncate f.base

/-- Ends the current call, whatever its result. -/
def leaveCall : EStateM.Result Stop State Completion → EStateM.Result Stop State Completion
  | .ok c s => .ok c s.leaveCall
  | .error e s => .error (s.frames.head?.elim e e.leave) s.leaveCall

/-- Runs a body as a new call. -/
def call (cx : Setup) (run : Segment → Exec Ended) (body : Segment) (scope : ScopeId)
    (parent : Option EnvId) (isBlock : Bool) (frame : EnvId → Nat → Frame) : Exec Completion := do
  if cx.limits.callDepth ≤ (← get).callDepth then raise .stackTooDeep
  let env ← newEnv cx scope parent
  modify fun s => { s with frames := frame env s.stack.length :: s.frames }
  fun s => leaveCall ((run body >>= complete isBlock) s)

/-- Calls a method. -/
def callMethod (cx : Setup) (run : Segment → Exec Ended) (m : Method) (self : Value)
    (args : List Value) (block : Option ProcId) (callSite : Nat) : Exec Completion :=
  call cx run m.body m.scope none false fun env base =>
    { name := m.name, callSite, args, env, block, self, base }

/-- Calls a captured block. -/
def callBlock (cx : Setup) (run : Segment → Exec Ended) (c : Closure) (args : List Value)
    (callSite : Nat) : Exec Completion :=
  call cx run c.body c.scope (some c.env) true fun env base =>
    { name := "block in " ++ c.home, callSite, args, env, block := c.block, self := c.self, base }

/-- Sends a message. Built-in methods come first, then those of the program, then the two that
print, which have no explicit receiver. -/
def send (cx : Setup) (run : Segment → Exec Ended) (receiver : Option Value) (message : String)
    (args : List Value) (block : Option ProcId) (index : Nat) : Exec Completion := do
  let target ← match receiver with
    | some v => pure v
    | none => pure (← frame index).self
  match Builtin.call? target message args with
  | some (.ok v) => return .value v
  | some (.error e) => raise e
  | none =>
    match (← get).methods.get? message with
    | some m =>
      if m.selfOnly && receiver.isSome then raise (.privateMethod message target)
      else callMethod cx run m target args block index
    | none =>
      match receiver, message with
      | none, "puts" => writeLines args; return .value .nil
      | none, "print" => args.forM fun v => write v.text; return .value .nil
      | _, _ => raise (.noMethod message target)

/-- Puts the value of a call on the stack; a halt goes on outwards. -/
def deliver : Completion → Exec (Option Signal)
  | .value v => do push v; return none
  | .halt => return some .halt

/-! ## Instructions -/

/-- The block on the stack that goes with a message. -/
def popBlock (withBlock : Bool) (index : Nat) : Exec (Option ProcId) := do
  if withBlock then
    match ← pop index with
    | .proc id => return some id
    | other => malformed index (.notABlock other)
  else return none

/-- Runs one instruction, the code after which is `after`. Gives the signal that it ends with, and
the code that follows it: a block that was cut out is passed. -/
def step (cx : Setup) (run : Segment → Exec Ended) (fuel : Nat) (i : Instruction)
    (after : Segment) : Exec (Option Signal × Segment) :=
  let index := after.start - 1
  let plain (act : Exec Unit) : Exec (Option Signal × Segment) := do
    act
    return (none, after)
  match i.op with
  | .pushInt n => plain (push (.int n))
  | .pushString s => plain (push (.str s))
  | .pushSymbol s => plain (push (.sym s))
  | .pushNil => plain (push .nil)
  | .pushTrue => plain (push (.bool true))
  | .pushFalse => plain (push (.bool false))
  | .pushSelf => plain do push (← frame index).self
  | .pop => plain do let _ ← pop index
  | .dup => plain do push (← peek index)
  | .getLocal name => plain do
    let env := (← frame index).env
    checkLookup cx env i.scope name false index
    push (← liftLookup ((← get).envs.read env name))
  | .setLocal name localOnly => plain do
    let v ← pop index
    let env := (← frame index).env
    checkLookup cx env i.scope name localOnly index
    let (owner, _) ← liftLookup ((← get).envs.resolve env name localOnly)
    modify fun s => { s with envs := s.envs.assign owner name v }
  | .getGlobal name => plain do push (((← get).globals.get? name).getD .nil)
  | .setGlobal name => plain do
    let v ← pop index
    modify fun s => { s with globals := s.globals.insert name v }
  | .checkArgs expected => plain do
    let given := (← frame index).args.length
    if given ≠ expected.toNat then raise (.wrongArity given expected.toNat)
  | .pushArg n => plain do push ((← frame index).args[n.toNat]?.getD .nil)
  | .send message argc receiver withBlock => do
    let block ← popBlock withBlock index
    let args ← popN argc index
    let target ← if receiver then some <$> pop index else pure none
    let result ← send cx run target message args block index
    return (← deliver result, after)
  | .yield argc => do
    let args ← popN argc index
    match (← frame index).block.bind ((← get).procs[·]?) with
    | none => raise .noBlock
    | some closure =>
      let result ← callBlock cx run closure args index
      return (← deliver result, after)
  | .ifTrue => do
    let condition ← pop index
    let (yes, after) ← cut after .orElse none
    let (no, after) ← cut after .ending (some .cond)
    let (signal, _) ← run (if condition.isTruthy then yes else no)
    return (signal, after)
  | .whileTrue => do
    let (test, after) ← cut after .loopBody none
    let (body, after) ← cut after .ending (some .loop)
    let base := (← get).stack.length
    let signal ← loop run test body index base fuel
    return (signal, after)
  | .defineMethod name scope => do
    let (body, after) ← cut after .ending (some .method)
    modify fun s =>
      let m : Method := { name, body, scope, selfOnly := s.visibility = .selfOnly }
      { s with methods := s.methods.insert name m }
    push (.sym name)
    return (none, after)
  | .defineBlock scope => do
    let (body, after) ← cut after .ending (some .block)
    let f ← frame index
    let closure : Closure :=
      { body, scope, env := f.env, self := f.self, block := f.block, home := f.name }
    let id := (← get).procs.size
    modify fun s => { s with procs := s.procs.push closure }
    push (.proc id)
    return (none, after)
  | .orElse | .loopBody | .endBlock _ => malformed index (.stray i.op)
  | .ret => do return (some (.ret (← pop index)), after)
  | .breakOut => return (some .breakOut, after)
  | .next withValue => do
    let v ← if withValue then some <$> pop index else pure none
    return (some (.next v), after)
  | .halt => return (some .halt, after)
  | .setVisibility visibility => plain (modify fun s => { s with visibility })

/-- Runs a segment. -/
def exec (cx : Setup) : Nat → Segment → Exec Ended
  | 0, _ => throw .outOfFuel
  | _ + 1, ⟨index, []⟩ => return (none, index)
  | n + 1, ⟨index, i :: rest⟩ => do
    tick cx
    match ← step cx (exec cx n) n i ⟨index + 1, rest⟩ with
    | (none, after) => exec cx n after
    | (some signal, after) => return (some signal, after.start)

end StackCode.Machine
