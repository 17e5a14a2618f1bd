import StackCode.Machine.Run

/-!
# The machine with hooks

A run is observed by letting something else happen at two places: before an instruction, where the
machine counts it and checks the limits, and at the end of a call, where it takes the call back.
Both are parameters of the hooked machine (`Hooks`), which is the machine when they are what the
machine itself does there (`exec_eq_execBy`, `runWithin_eq_runBy`).
-/

namespace StackCode.Machine

/-! ## Hooks -/

/-- What is done at the end of a call. -/
abbrev Leave := EStateM.Result Stop State Completion → EStateM.Result Stop State Completion

/-- Ends the current call if its body came to a result, and leaves it as it is if not. -/
def leaveHeld : Leave
  | .ok c s => .ok c s.leaveCall
  | .error e s => .error e s

/-- What is done before an instruction, and at the end of a call. -/
structure Hooks where
  before : Instruction → Exec Unit
  leave : Leave

namespace Hooks

/-- What the machine does. -/
def plain (cx : Setup) : Hooks := ⟨fun _ => tick cx, leaveCall⟩

/-- No call that fails is undone: a run that stops does so in the state in which it stops. -/
def held (cx : Setup) : Hooks := ⟨fun _ => tick cx, leaveHeld⟩

/-- A computation of its own before every instruction that is within the limits. -/
def watched (watch : Instruction → Exec Unit) (cx : Setup) : Hooks :=
  ⟨fun i => do tick cx; watch i, leaveCall⟩

end Hooks

/-! ## Calls and instructions -/

section

variable (leave : Leave) (cx : Setup) (run : Segment → Exec Ended)

/-- Runs a body as a new call, which ends by `leave`. -/
def callBy (body : Segment) (scope : ScopeId) (parent : Option EnvId) (isBlock : Bool)
    (frame : EnvId → Nat → Frame) : Exec Completion := do
  if cx.limits.callDepth ≤ (← get).callDepth then raise .stackTooDeep
  let env ← newEnv cx scope parent
  modify fun s => { s with frames := frame env s.stack.length :: s.frames }
  fun s => leave ((run body >>= complete isBlock) s)

/-- Sends a message to `target`, with calls that end by `leave`; `receiver` is what stands before
the message in the text. -/
def dispatchBy (receiver : Option Value) (message : String) (args : List Value)
    (block : Option ProcId) (index : Nat) (target : Value) : Exec Completion := do
  match Builtin.call? target message args with
  | some (.ok v) => return .value v
  | some (.error e) => raise e
  | none =>
    match (← get).methods.get? message with
    | some m =>
      if m.selfOnly && receiver.isSome then raise (.privateMethod message target)
      else callBy leave cx run m.body m.scope none false fun env base =>
        { name := m.name, callSite := index, args, env, block, self := target, base }
    | none =>
      match receiver, message with
      | none, "puts" => writeLines args; return .value .nil
      | none, "print" => args.forM fun v => write v.text; return .value .nil
      | _, _ => raise (.noMethod message target)

/-- Sends a message, with calls that end by `leave`. -/
def sendBy (receiver : Option Value) (message : String) (args : List Value)
    (block : Option ProcId) (index : Nat) : Exec Completion :=
  match receiver with
  | some v => dispatchBy leave cx run receiver message args block index v
  | none => do dispatchBy leave cx run receiver message args block index (← frame index).self

/-- Runs one instruction, with calls that end by `leave`. -/
def stepBy (fuel : Nat) (i : Instruction) (after : Segment) : Exec (Option Signal × Segment) :=
  let index := after.start - 1
  match i.op with
  | .send message argc receiver withBlock => do
    let block ← popBlock withBlock index
    let args ← popN argc index
    let target ← if receiver then some <$> pop index else pure none
    let result ← sendBy leave cx run target message args block index
    return (← deliver result, after)
  | .yield argc => do
    let args ← popN argc index
    match (← frame index).block.bind ((← get).procs[·]?) with
    | none => raise .noBlock
    | some c =>
      let result ← callBy leave cx run c.body c.scope (some c.env) true fun env base =>
        { name := "block in " ++ c.home, callSite := index, args, env, block := c.block,
          self := c.self, base }
      return (← deliver result, after)
  | _ => step cx run fuel i after

end

/-- Runs a segment with hooks. -/
def execBy (hooks : Hooks) (cx : Setup) : Nat → Segment → Exec Ended
  | 0, _ => throw .outOfFuel
  | _ + 1, ⟨index, []⟩ => return (none, index)
  | n + 1, ⟨index, i :: rest⟩ => do
    hooks.before i
    match ← stepBy hooks.leave cx (execBy hooks cx n) n i ⟨index + 1, rest⟩ with
    | (none, after) => execBy hooks cx n after
    | (some signal, after) => return (some signal, after.start)

/-- Runs a program with hooks. -/
def runBy (hooks : Setup → Hooks) (fuel : Nat) (limits : Limits) (p : Program) : Exec Exit := do
  let cx : Setup := { limits, scopes := p.scopes }
  let env ← newEnv cx .root none
  modify fun s => { s with frames := [topFrame env] }
  finish (← execBy (hooks cx) cx fuel p.segment)

/-! ## The machine itself -/

theorem send_eq_sendBy (cx : Setup) (run : Segment → Exec Ended) (receiver : Option Value)
    (message : String) (args : List Value) (block : Option ProcId) (index : Nat) :
    send cx run receiver message args block index =
      sendBy leaveCall cx run receiver message args block index := by
  cases receiver <;> rfl

/-- An instruction of the machine is one that ends its calls as the machine does. -/
theorem step_eq_stepBy (cx : Setup) (run : Segment → Exec Ended) (fuel : Nat) (i : Instruction)
    (after : Segment) : step cx run fuel i after = stepBy leaveCall cx run fuel i after := by
  obtain ⟨op, scope⟩ := i
  cases op with
  | send message argc receiver withBlock => simp only [step, stepBy, send_eq_sendBy]
  | _ => rfl

/-- **With its own hooks the hooked machine is the machine.** -/
theorem exec_eq_execBy (cx : Setup) (n : Nat) : exec cx n = execBy (.plain cx) cx n := by
  induction n with
  | zero => rfl
  | succ n ih =>
    funext ⟨index, code⟩
    cases code with
    | nil => rfl
    | cons i rest =>
      simp only [exec, execBy, step_eq_stepBy]
      exact ih ▸ rfl

/-- **The plain hooks give the machine itself.** -/
theorem runWithin_eq_runBy (fuel : Nat) (limits : Limits) (p : Program) :
    runWithin fuel limits p = runBy .plain fuel limits p := by
  simp only [runWithin, runBy, exec_eq_execBy]

/-- A program has no top level, or its code runs in the frame of the top level. -/
theorem runBy_eq (hooks : Setup → Hooks) (fuel : Nat) (limits : Limits) (p : Program) (s : State) :
    runBy hooks fuel limits p s =
      (Env.ofScope? p.scopes .root none).elim (fail (.missingScope .root) s) fun env =>
        (execBy (hooks ⟨limits, p.scopes⟩) ⟨limits, p.scopes⟩ fuel p.segment >>= finish)
          { s with envs := s.envs.push env, frames := [topFrame s.envs.next] } := by
  unfold runBy newEnv
  cases Env.ofScope? p.scopes .root none <;> rfl

/-- A call is refused, or its body runs in an environment and a frame of its own. -/
theorem callBy_eq (leave : Leave) (cx : Setup) (run : Segment → Exec Ended) (body : Segment)
    (scope : ScopeId) (parent : Option EnvId) (isBlock : Bool) (frame : EnvId → Nat → Frame)
    (s : State) :
    callBy leave cx run body scope parent isBlock frame s =
      if cx.limits.callDepth ≤ s.callDepth then raise .stackTooDeep s
      else match Env.ofScope? cx.scopes scope parent with
        | none => fail (.missingScope scope) s
        | some env => leave ((run body >>= complete isBlock)
            { s with envs := s.envs.push env
                     frames := frame s.envs.next s.stack.length :: s.frames }) := by
  unfold callBy newEnv
  show (if cx.limits.callDepth ≤ s.callDepth then _ else _ : Exec Completion) s = _
  split
  · rfl
  · cases Env.ofScope? cx.scopes scope parent <;> rfl

theorem call_eq (cx : Setup) (run : Segment → Exec Ended) (body : Segment) (scope : ScopeId)
    (parent : Option EnvId) (isBlock : Bool) (frame : EnvId → Nat → Frame) (s : State) :
    call cx run body scope parent isBlock frame s =
      if cx.limits.callDepth ≤ s.callDepth then raise .stackTooDeep s
      else match Env.ofScope? cx.scopes scope parent with
        | none => fail (.missingScope scope) s
        | some env => leaveCall ((run body >>= complete isBlock)
            { s with envs := s.envs.push env
                     frames := frame s.envs.next s.stack.length :: s.frames }) :=
  callBy_eq leaveCall cx run body scope parent isBlock frame s

end StackCode.Machine
