import StackCode.Proofs.Simulation

/-!
# Whole runs of rewritten code

Calls, messages, loops and instructions follow their originals, given that the code inside them does
(`Rewriting.Runs`). With a rule whose windows run like what they are replaced by
(`Rewriting.Sound`), whole segments do, for as long as the original has fuel: the main statement is
`Rewriting.runs_exec`, by induction on that fuel. `Rewriting.exists_alike_runWithin` is the
same for programs.

The rewritten code may need less fuel but never more, so that it is given at least as much.
-/

namespace StackCode.Machine

/-! ## Runs without limits -/

/-- Neither the instructions of a run nor its operands are limited. -/
structure Setup.Unlimited (cx : Setup) : Prop where
  steps : cx.limits.steps = none
  stack : cx.limits.stack = none

theorem tick_of_unlimited {cx : Setup} (hcx : cx.Unlimited) (s : State) :
    tick cx s = .ok () { s with steps := s.steps + 1 } := by
  simp only [tick, hcx.steps, hcx.stack]
  rfl

/-- All that the instruction does is `act`, given its index. -/
def Performs (cx : Setup) (i : Instruction) (act : Nat → Exec Unit) : Prop :=
  ∀ run fuel after, step cx run fuel i after = (do act (after.start - 1); return (none, after))

/-- Code that begins with a simple instruction performs it and goes on. -/
theorem exec_of_performs {cx : Setup} (hcx : cx.Unlimited) {i : Instruction}
    {act : Nat → Exec Unit} (h : Performs cx i act) (n start : Nat) (rest : List Instruction)
    (s : State) :
    exec cx (n + 1) ⟨start, i :: rest⟩ s =
      (act start >>= fun _ => exec cx n ⟨start + 1, rest⟩) { s with steps := s.steps + 1 } := by
  show EStateM.bind (tick cx) _ s = EStateM.bind (act start) _ _
  simp only [EStateM.bind, tick_of_unlimited hcx]
  rw [h (exec cx n) n ⟨start + 1, rest⟩]
  show EStateM.bind (EStateM.bind (act start) _) _ _ = _
  unfold EStateM.bind
  cases act start { s with steps := s.steps + 1 } <;> rfl

/-- What a store to a variable does with the value that it took. -/
def assignLocal (cx : Setup) (scope : ScopeId) (name : String) (localOnly : Bool) (index : Nat)
    (v : Value) : Exec Unit := do
  let env := (← frame index).env
  checkLookup cx env scope name localOnly index
  let (owner, _) ← liftLookup ((← get).envs.resolve env name localOnly)
  modify fun s => { s with envs := s.envs.assign owner name v }

namespace Rewriting

variable {P : Rewriting} {calls : List Frame} {cx : Setup} {run run' : Segment → Exec Ended}
  {s s' : State}

/-! ## How code ends -/

/-- Two segments that ended with the same signal, wherever that was. -/
def EndAlike (e e' : Ended) : Prop := e'.1 = e.1

/-- Two instructions that ended with the same signal, the second one before rewritten code. -/
def StepAlike (P : Rewriting) (r r' : Option Signal × Segment) : Prop :=
  r'.1 = r.1 ∧ Rewritten P.rule r.2.code r'.2.code

/-- Rewritten segments run like the original ones. -/
def Runs (P : Rewriting) (run run' : Segment → Exec Ended) : Prop :=
  ∀ ⦃calls : List Frame⦄ ⦃seg seg' : Segment⦄, Rewritten P.rule seg.code seg'.code →
    P.Follows calls (run seg) (run' seg') EndAlike

/-! ## Calls -/

/-- Bodies that end alike give their calls the same result. -/
theorem follows_complete (isBlock : Bool) {e e' : Ended} (h : EndAlike e e') :
    P.Follows calls (complete isBlock e) (complete isBlock e') Eq := by
  obtain ⟨signal, stop⟩ := e
  obtain ⟨signal', stop'⟩ := e'
  cases (h : signal' = signal)
  cases signal with
  | none => exact (follows_pop _ _).andThen fun _ => follows_pure rfl
  | some signal =>
    cases signal with
    | breakOut => exact follows_malformed _ _ _ _
    | halt => exact follows_pure rfl
    | ret v =>
      cases isBlock with
      | true => exact follows_malformed _ _ _ _
      | false => exact follows_pure rfl
    | next v =>
      cases v with
      | none => exact follows_malformed _ _ _ _
      | some v =>
        cases isBlock with
        | true => exact follows_pure rfl
        | false => exact follows_malformed _ _ _ _

/-- Both runs leave the call, and the operands of the caller are alike again. -/
theorem Like.leaveCall {f : Frame} (h : P.Like (f :: calls) s s') :
    P.Like calls s.leaveCall s'.leaveCall := by
  unfold State.leaveCall
  rcases h.cases_frames with ⟨hf, hf'⟩ | ⟨g, callSite, rest, rest', hf, hf', hrest⟩
  · rw [h.stacked.frames_eq] at hf
    cases hf
  · rw [hf, hf']
    rw [h.stacked.frames_eq] at hf
    cases hf
    have hpopped : P.Like calls { s with frames := calls } { s' with frames := rest' } :=
      { h with frames := hrest, stacked := h.stacked.leave }
    exact hpopped.truncate h.stacked.floorOf_le

theorem SameTrail.leaveCall (h : SameTrail s s') : SameTrail s.leaveCall s'.leaveCall := by
  unfold State.leaveCall
  rcases h.cases_frames with ⟨hf, hf'⟩ | ⟨f, callSite, rest, rest', hf, hf', hrest⟩
  · rw [hf, hf']
    exact h
  · rw [hf, hf']
    exact ⟨hrest, h.output⟩

/-- An exception that leaves the innermost call of two runs collects it in both. -/
theorem SameTrail.unplaced_left (h : SameTrail s s') {e e' : Stop}
    (he : e'.unplaced = e.unplaced) :
    (s'.frames.head?.elim e' e'.leave).unplaced = (s.frames.head?.elim e e.leave).unplaced := by
  rcases h.cases_frames with ⟨hf, hf'⟩ | ⟨f, callSite, rest, rest', hf, hf', -⟩
  · rw [hf, hf']
    exact he
  · rw [hf, hf']
    show (e'.leave { f with callSite }).unplaced = (e.leave f).unplaced
    rw [Stop.unplaced_leave, Stop.unplaced_leave, he]
    rfl

/-- What need not be matched inside a call need not be outside. -/
theorem exempt_left {e : Stop} (he : P.exempt e) (s : State) :
    P.exempt (s.frames.head?.elim e e.leave) := by
  cases s.frames.head? with
  | none => exact he
  | some f => exact P.exempt_leave he f

/-- **The end of a call**, whether it came to a result or to a stop. -/
theorem alike_leaveCall {f : Frame} {m m' : Exec Completion} (h : P.Like (f :: calls) s s')
    (hm : P.Follows (f :: calls) m m' Eq) :
    P.Alike calls Eq (leaveCall (m s)) (leaveCall (m' s')) := by
  have hm := hm h
  generalize m s = r, m' s' = r' at hm ⊢
  cases hm with
  | ok hr ht => exact .ok hr ht.leaveCall
  | error he ht => exact .error (SameTrail.unplaced_left ht he) (SameTrail.leaveCall ht)
  | exempt he => exact .exempt (exempt_left he _)

theorem Like.enter (h : P.Like calls s s') {f f' : Frame} (hf : f'.unplaced = f.unplaced)
    (hbase : f.base = s.stack.length) :
    P.Like (f :: calls) { s with frames := f :: s.frames }
      { s' with frames := f' :: s'.frames } :=
  { h with
    frames := by rw [List.map_cons, List.map_cons, hf, h.frames]
    stacked := h.stacked.enter hbase }

/-- **A call of a rewritten body follows the call of the original one.** -/
theorem follows_call (hrun : P.Runs run run') {body body' : Segment}
    (hbody : Rewritten P.rule body.code body'.code) (scope : ScopeId) (parent : Option EnvId)
    (isBlock : Bool) {frame frame' : EnvId → Nat → Frame}
    (hframe : ∀ env base, (frame' env base).unplaced = (frame env base).unplaced)
    (hbase : ∀ env base, (frame env base).base = base) :
    P.Follows calls (call cx run body scope parent isBlock frame)
      (call cx run' body' scope parent isBlock frame') Eq := by
  unfold call
  refine follows_get fun s s' h => ?_
  have hdepth : s'.callDepth = s.callDepth := congrArg (· - 1) h.length_frames
  rw [hdepth]
  split
  · exact Follows.bind (R := fun _ _ => False) (follows_raise _) fun _ _ h => h.elim
  refine (follows_newEnv cx scope parent).andThen fun env => ?_
  -- the body runs with one call more, which is left behind again
  intro t t' ht
  have hentered : P.Like (frame env t.stack.length :: calls)
      { t with frames := frame env t.stack.length :: t.frames }
      { t' with frames := frame' env t'.stack.length :: t'.frames } := by
    refine ht.enter ?_ (hbase env _)
    rw [ht.stack]
    exact hframe env _
  exact alike_leaveCall hentered ((hrun hbody).bind fun e e' he => follows_complete isBlock he)

/-- Methods with bodies that are alike are called alike. -/
theorem follows_callMethod (hrun : P.Runs run run') {m m' : Method} (hm : P.LikeMethod m m')
    (self : Value) (args : List Value) (block : Option ProcId) (i i' : Nat) :
    P.Follows calls (callMethod cx run m self args block i) (callMethod cx run' m' self args block i')
      Eq := by
  unfold callMethod
  rw [hm.scope, hm.name]
  exact follows_call hrun hm.body _ _ _ (fun _ _ => rfl) fun _ _ => rfl

theorem follows_callBlock (hrun : P.Runs run run') {c c' : Closure} (hc : P.LikeClosure c c')
    (args : List Value) (i i' : Nat) :
    P.Follows calls (callBlock cx run c args i) (callBlock cx run' c' args i') Eq := by
  unfold callBlock
  rw [hc.scope, hc.env, hc.home, hc.block, hc.self]
  exact follows_call hrun hc.body _ _ _ (fun _ _ => rfl) fun _ _ => rfl

/-! ## Messages -/

/-- A message finds the same method in both runs, up to its body. -/
theorem follows_dispatch (hrun : P.Runs run run') (receiver : Option Value) (message : String)
    (args : List Value) (block : Option ProcId) (i i' : Nat) (target : Value) :
    P.Follows calls (dispatch cx run receiver message args block i target)
      (dispatch cx run' receiver message args block i' target) Eq := by
  simp only [dispatch_eq]
  split
  · exact follows_pure rfl
  · exact follows_raise _
  refine follows_get fun s s' h => ?_
  have hfound := h.methods message
  generalize s.methods.get? message = found, s'.methods.get? message = found' at hfound ⊢
  cases hfound with
  | some hm =>
    dsimp only
    rw [hm.selfOnly]
    split
    · exact follows_raise _
    · exact follows_callMethod hrun hm _ _ _ _ _
  | none =>
    dsimp only
    split
    · exact (follows_writeLines args).andThen fun _ => follows_pure rfl
    · exact (follows_writeAll _ args).andThen fun _ => follows_pure rfl
    · exact follows_raise _

theorem follows_send (hrun : P.Runs run run') (receiver : Option Value) (message : String)
    (args : List Value) (block : Option ProcId) (i i' : Nat) :
    P.Follows calls (send cx run receiver message args block i)
      (send cx run' receiver message args block i') Eq := by
  rw [send_eq, send_eq]
  cases receiver with
  | some v => exact follows_dispatch hrun _ _ _ _ _ _ _
  | none =>
    refine (follows_frame i i').bind ?_
    rintro f _ ⟨callSite, rfl⟩
    exact follows_dispatch hrun _ _ _ _ _ _ _

theorem follows_deliver (c : Completion) : P.Follows calls (deliver c) (deliver c) Eq := by
  cases c with
  | value v => exact (follows_push v).andThen fun _ => follows_pure rfl
  | halt => exact follows_pure rfl

/-! ## Loops -/

/-- **The rounds of a loop follow those of the original one**, and come to the same end. -/
theorem follows_loop (hrun : P.Runs run run') {test test' body body' : Segment}
    (htest : Rewritten P.rule test.code test'.code)
    (hbody : Rewritten P.rule body.code body'.code) (i i' : Nat) {base : Nat}
    (hbase : floorOf calls ≤ base) {n n' : Nat} (hn : n ≤ n') :
    P.Follows calls (loop run test body i base n) (loop run' test' body' i' base n') Eq := by
  induction n generalizing n' with
  | zero => exact fun _ _ _ => .exempt P.exempt_fuel
  | succ n ih =>
    cases n' with
    | zero => exact absurd hn (Nat.not_succ_le_zero n)
    | succ n' =>
      -- the two ways in which a loop takes a signal up
      have stop : P.Follows calls (do truncate base; return (none : Option Signal))
          (do truncate base; return (none : Option Signal)) Eq :=
        (follows_truncate hbase).andThen fun _ => follows_pure rfl
      have again : P.Follows calls (do truncate base; loop run test body i base n)
          (do truncate base; loop run' test' body' i' base n') Eq :=
        (follows_truncate hbase).andThen fun _ => ih (Nat.le_of_succ_le_succ hn)
      unfold loop
      refine (hrun htest).bind fun e e' he => ?_
      rw [show e'.1 = e.1 from he]
      split
      · exact stop
      · exact again
      · exact follows_pure rfl
      · refine (follows_pop i i').andThen fun v => ?_
        split
        · refine (hrun hbody).bind fun e e' he => ?_
          rw [show e'.1 = e.1 from he]
          split
          · exact stop
          · exact again
          · exact again
          · exact follows_pure rfl
        · exact stop

/-! ## Instructions -/

variable {after after' : Segment}

/-- Instructions that act on the state alone leave code that is alike. -/
theorem follows_plain {act act' : Exec Unit} (hact : P.Follows calls act act' Eq)
    (hafter : Rewritten P.rule after.code after'.code) :
    P.Follows calls (do act; return ((none : Option Signal), after))
      (do act'; return ((none : Option Signal), after')) P.StepAlike :=
  hact.andThen fun _ => follows_pure ⟨rfl, hafter⟩

/-- A variable has the same value in both runs. -/
theorem follows_getLocal (cx : Setup) (scope : ScopeId) (name : String) (i i' : Nat) :
    P.Follows calls
      (do
        let env := (← frame i).env
        checkLookup cx env scope name false i
        push (← liftLookup ((← get).envs.read env name)))
      (do
        let env := (← frame i').env
        checkLookup cx env scope name false i'
        push (← liftLookup ((← get).envs.read env name))) Eq := by
  refine (follows_frame i i').bind ?_
  rintro f _ ⟨callSite, rfl⟩
  refine (follows_checkLookup cx _ scope name false i i').andThen fun _ => ?_
  refine follows_get fun s s' h => ?_
  rw [h.envs]
  exact (follows_liftLookup _).andThen fun v => follows_push v

/-- A variable gets the same value in both runs. -/
theorem follows_assignLocal (cx : Setup) (scope : ScopeId) (name : String) (localOnly : Bool)
    (i i' : Nat) (v : Value) :
    P.Follows calls (assignLocal cx scope name localOnly i v) (assignLocal cx scope name localOnly i' v)
      Eq := by
  refine (follows_frame i i').bind ?_
  rintro f _ ⟨callSite, rfl⟩
  refine (follows_checkLookup cx _ scope name localOnly i i').andThen fun _ => ?_
  refine follows_get fun s s' h => ?_
  rw [h.envs]
  refine (follows_liftLookup _).andThen fun ⟨owner, _⟩ => follows_modify fun t t' ht => ?_
  rw [ht.envs]
  exact ht.withEnvs _

theorem follows_popBlock (withBlock : Bool) (i i' : Nat) :
    P.Follows calls (popBlock withBlock i) (popBlock withBlock i') Eq := by
  unfold popBlock
  split
  · refine (follows_pop i i').andThen fun v => ?_
    split
    · exact follows_pure rfl
    · exact follows_malformed _ _ _ _
  · exact follows_pure rfl

theorem follows_popIf (wanted : Bool) (i i' : Nat) {γ δ : Type} {Q : γ → δ → Prop}
    {f : Option Value → Exec γ} {f' : Option Value → Exec δ} (hf : ∀ v, P.Follows calls (f v) (f' v) Q) :
    P.Follows calls (if wanted then some <$> pop i >>= f else pure none >>= f)
      (if wanted then some <$> pop i' >>= f' else pure none >>= f') Q := by
  cases wanted with
  | true =>
    have hpop : P.Follows calls (some <$> pop i) (some <$> pop i') Eq :=
      (follows_pop i i').andThen fun v => follows_pure rfl
    exact hpop.andThen hf
  | false => exact hf none

/-- A message takes the same operands in both runs. -/
theorem follows_sendStep (hrun : P.Runs run run') (message : String) (argc : UInt64)
    (receiver withBlock : Bool) (i i' : Nat) (hafter : Rewritten P.rule after.code after'.code) :
    P.Follows calls
      (do
        let block ← popBlock withBlock i
        let args ← popN argc i
        let target ← if receiver then some <$> pop i else pure none
        let result ← send cx run target message args block i
        return (← deliver result, after))
      (do
        let block ← popBlock withBlock i'
        let args ← popN argc i'
        let target ← if receiver then some <$> pop i' else pure none
        let result ← send cx run' target message args block i'
        return (← deliver result, after')) P.StepAlike := by
  refine (follows_popBlock withBlock i i').andThen fun block => ?_
  refine (follows_popN argc i i').andThen fun args => ?_
  refine follows_popIf receiver i i' fun target => ?_
  refine (follows_send hrun target message args block i i').andThen fun result => ?_
  exact (follows_deliver result).andThen fun signal => follows_pure ⟨rfl, hafter⟩

theorem follows_yieldStep (hrun : P.Runs run run') (argc : UInt64) (i i' : Nat)
    (hafter : Rewritten P.rule after.code after'.code) :
    P.Follows calls
      (do
        let args ← popN argc i
        match (← frame i).block.bind ((← get).procs[·]?) with
        | none => raise .noBlock
        | some closure =>
          let result ← callBlock cx run closure args i
          return (← deliver result, after))
      (do
        let args ← popN argc i'
        match (← frame i').block.bind ((← get).procs[·]?) with
        | none => raise .noBlock
        | some closure =>
          let result ← callBlock cx run' closure args i'
          return (← deliver result, after')) P.StepAlike := by
  refine (follows_popN argc i i').andThen fun args => (follows_frame i i').bind ?_
  rintro f _ ⟨callSite, rfl⟩
  refine follows_get fun s s' h => ?_
  dsimp only
  cases f.block with
  | none => exact follows_raise _
  | some id =>
    have hfound := h.procs id
    rw [Option.bind_some, Option.bind_some]
    generalize s.procs[id]? = found, s'.procs[id]? = found' at hfound ⊢
    cases hfound with
    | none => exact follows_raise _
    | some hc =>
      refine (follows_callBlock hrun hc args i i').andThen fun result => ?_
      exact (follows_deliver result).andThen fun signal => follows_pure ⟨rfl, hafter⟩

/-- Both runs keep the method, each with its own body. -/
theorem Like.withMethod (h : P.Like calls s s') (name : String) {m m' : Method}
    (hm : P.LikeMethod m m') :
    P.Like calls { s with methods := s.methods.insert name m }
      { s' with methods := s'.methods.insert name m' } := by
  refine { h with methods := fun other => ?_ }
  rw [Table.get?_insert, Table.get?_insert]
  split
  · exact .some hm
  · exact h.methods other

/-- Both runs keep the block, each with its own body. -/
theorem Like.withProc (h : P.Like calls s s') {c c' : Closure} (hc : P.LikeClosure c c') :
    P.Like calls { s with procs := s.procs.push c } { s' with procs := s'.procs.push c' } := by
  refine { h with procCount := ?_, procs := fun id => ?_ }
  · rw [Array.size_push, Array.size_push, h.procCount]
  · rw [Array.getElem?_push, Array.getElem?_push, h.procCount]
    split
    · exact .some hc
    · exact h.procs id

/-- **An instruction follows itself**, before code that is rewritten. -/
theorem follows_step (hrun : P.Runs run run') {n n' : Nat} (hn : n ≤ n') (i : Instruction)
    (hafter : Rewritten P.rule after.code after'.code) :
    P.Follows calls (step cx run n i after) (step cx run' n' i after') P.StepAlike := by
  obtain ⟨op, scope⟩ := i
  have hframe := @follows_frame P calls (after.start - 1) (after'.start - 1)
  have hpop := @follows_pop P calls (after.start - 1) (after'.start - 1)
  cases op with
  | pushInt | pushString | pushSymbol | pushNil | pushTrue | pushFalse =>
    exact follows_plain (follows_push _) hafter
  | pushSelf =>
    refine follows_plain (hframe.bind ?_) hafter
    rintro f _ ⟨callSite, rfl⟩
    exact follows_push _
  | pop => exact follows_plain (hpop.andThen fun _ => follows_pure rfl) hafter
  | dup => exact follows_plain ((follows_peek _ _).andThen fun v => follows_push v) hafter
  | getLocal name => exact follows_plain (follows_getLocal cx scope name _ _) hafter
  | setLocal name localOnly =>
    refine follows_plain (hpop.andThen fun v => ?_) hafter
    exact follows_assignLocal cx scope name localOnly _ _ v
  | getGlobal name =>
    refine follows_plain (follows_get fun s s' h => ?_) hafter
    rw [h.globals]
    exact follows_push _
  | setGlobal name =>
    refine follows_plain (hpop.andThen fun v => follows_modify fun s s' h => ?_) hafter
    exact { h with globals := by rw [h.globals] }
  | checkArgs expected =>
    refine follows_plain (hframe.bind ?_) hafter
    rintro f _ ⟨callSite, rfl⟩
    dsimp only
    split
    · exact follows_raise _
    · exact follows_pure rfl
  | pushArg index =>
    refine follows_plain (hframe.bind ?_) hafter
    rintro f _ ⟨callSite, rfl⟩
    exact follows_push _
  | send message argc receiver withBlock =>
    exact follows_sendStep hrun message argc receiver withBlock _ _ hafter
  | yield argc => exact follows_yieldStep hrun argc _ _ hafter
  -- blocks are cut out of rewritten code, so they are rewritten themselves
  | ifTrue =>
    refine hpop.andThen fun condition => ?_
    refine (follows_cut hafter _ _).bind fun ⟨yes, rest⟩ ⟨yes', rest'⟩ ⟨hyes, hrest⟩ => ?_
    refine (follows_cut hrest _ _).bind fun ⟨no, rest⟩ ⟨no', rest'⟩ ⟨hno, hrest⟩ => ?_
    have hbranch : Rewritten P.rule (if condition.isTruthy then yes else no).code
        (if condition.isTruthy then yes' else no').code := by
      split
      · exact hyes
      · exact hno
    exact (hrun hbranch).bind fun e e' he => follows_pure ⟨he, hrest⟩
  | whileTrue =>
    refine (follows_cut hafter _ _).bind fun ⟨test, rest⟩ ⟨test', rest'⟩ ⟨htest, hrest⟩ => ?_
    refine (follows_cut hrest _ _).bind fun ⟨body, rest⟩ ⟨body', rest'⟩ ⟨hbody, hrest⟩ => ?_
    refine follows_get fun s s' h => ?_
    dsimp only
    rw [h.stack]
    refine (follows_loop hrun htest hbody _ _ h.stacked.grounded hn).andThen fun signal => ?_
    exact follows_pure ⟨rfl, hrest⟩
  | defineMethod name scope =>
    refine (follows_cut hafter _ _).bind fun ⟨body, rest⟩ ⟨body', rest'⟩ ⟨hbody, hrest⟩ => ?_
    refine (follows_modify fun s s' h => ?_).andThen fun _ =>
      follows_plain (follows_push _) hrest
    refine h.withMethod name ⟨hbody, rfl, rfl, ?_⟩
    dsimp only
    rw [h.visibility]
  | defineBlock scope =>
    refine (follows_cut hafter _ _).bind fun ⟨body, rest⟩ ⟨body', rest'⟩ ⟨hbody, hrest⟩ => ?_
    refine hframe.bind ?_
    rintro f _ ⟨callSite, rfl⟩
    refine follows_get fun s s' h => ?_
    rw [h.procCount]
    refine (follows_modify fun t t' ht => ?_).andThen fun _ =>
      follows_plain (follows_push _) hrest
    exact ht.withProc ⟨hbody, rfl, rfl, rfl, rfl, rfl⟩
  | orElse | loopBody | endBlock => exact follows_malformed _ _ _ _
  | ret => exact hpop.andThen fun v => follows_pure ⟨rfl, hafter⟩
  | breakOut | halt => exact follows_pure ⟨rfl, hafter⟩
  | next withValue =>
    exact follows_popIf withValue _ _ fun v => follows_pure ⟨rfl, hafter⟩
  | setVisibility visibility =>
    exact follows_plain (follows_modify fun s s' h => { h with visibility := rfl }) hafter

/-! ## Segments -/

/-- Without limits, counting an instruction stops neither run. -/
theorem follows_tick (hcx : cx.Unlimited) : P.Follows calls (tick cx) (tick cx) Eq := by
  intro s s' h
  rw [tick_of_unlimited hcx, tick_of_unlimited hcx]
  exact .ok rfl { h with }

/-- The code behind two windows runs alike, with less fuel than the first window has. -/
def RunsBehind (P : Rewriting) (cx : Setup) (n : Nat) (rest rest' : List Instruction) : Prop :=
  ∀ ⦃calls : List Frame⦄ ⦃k k' : Nat⦄, k < n → k ≤ k' → ∀ start start',
    P.Follows calls (exec cx k ⟨start, rest⟩) (exec cx k' ⟨start', rest'⟩) EndAlike

/-- Every window of the rule runs like what replaces it, if the code behind does. -/
def Sound (P : Rewriting) (cx : Setup) : Prop :=
  ∀ ⦃old new : List Instruction⦄, P.rule old new →
    ∀ ⦃rest rest' : List Instruction⦄ ⦃n n' : Nat⦄, n ≤ n' → P.RunsBehind cx n rest rest' →
      ∀ ⦃calls : List Frame⦄ start start', P.Follows calls (exec cx n ⟨start, old ++ rest⟩)
        (exec cx n' ⟨start', new ++ rest'⟩) EndAlike

/-- **Segments that a sound pass rewrote run like the original ones.** -/
theorem runs_exec (hcx : cx.Unlimited) (hP : P.Sound cx) {n n' : Nat} (hn : n ≤ n') :
    P.Runs (exec cx n) (exec cx n') := by
  -- on the fuel of the original: a window takes up several instructions, so that the code behind it
  -- is left with less by more than one
  induction n using Nat.strongRecOn generalizing n' with
  | ind n ih =>
    intro calls ⟨start, code⟩ ⟨start', code'⟩ h
    cases n with
    | zero => exact fun _ _ _ => .exempt P.exempt_fuel
    | succ n =>
      cases n' with
      | zero => exact absurd hn (Nat.not_succ_le_zero n)
      | succ n' =>
        have hle := Nat.le_of_succ_le_succ hn
        have hrun : P.Runs (exec cx n) (exec cx n') := ih n (Nat.lt_succ_self n) hle
        cases h with
        | nil => exact follows_pure rfl
        | keep i hrest =>
          refine (follows_tick hcx).andThen fun _ => ?_
          refine (follows_step hrun hle i hrest).bind ?_
          rintro ⟨signal, after⟩ ⟨signal', after'⟩ ⟨hsignal, hafter⟩
          cases (hsignal : signal' = signal)
          cases signal with
          | none => exact hrun hafter
          | some signal => exact follows_pure rfl
        | replace hr hrest =>
          exact hP hr hn (fun _ k k' hk hk' _ _ => ih k hk hk' hrest) start start'

/-! ## Programs -/

theorem like_refl (h : Stacked calls s.frames s.stack.length) : P.Like calls s s where
  stacked := h
  frames := rfl
  output := rfl
  stack := rfl
  globals := rfl
  visibility := rfl
  envs := rfl
  methods name := by
    cases s.methods.get? name with
    | none => exact .none
    | some m => exact .some ⟨rewritten_refl _, rfl, rfl, rfl⟩
  procCount := rfl
  procs id := by
    cases s.procs[id]? with
    | none => exact .none
    | some c => exact .some ⟨rewritten_refl _, rfl, rfl, rfl, rfl, rfl⟩

theorem follows_finish {e e' : Ended} (h : EndAlike e e') :
    P.Follows calls (finish e) (finish e') Eq := by
  obtain ⟨signal, stop⟩ := e
  obtain ⟨signal', stop'⟩ := e'
  cases (h : signal' = signal)
  cases signal with
  | none =>
    refine follows_get fun s s' h => ?_
    rw [h.stack]
    exact follows_pure rfl
  | some signal =>
    cases signal with
    | ret | halt => exact follows_pure rfl
    | breakOut | next => exact follows_malformed _ _ _ _

/-- The top level of a program follows the original one, and so do their runs. -/
theorem exists_alike_runWithin {limits : Limits} {p : Program} {code : List Instruction}
    (hcx : Setup.Unlimited ⟨limits, p.scopes⟩) (hP : P.Sound ⟨limits, p.scopes⟩)
    (h : Rewritten P.rule p.code code) {n n' : Nat} (hn : n ≤ n') (hs : P.Like [] s s') :
    ∃ calls, P.Alike calls Eq (runWithin n limits p s)
      (runWithin n' limits { p with code } s') := by
  have henv := follows_newEnv (P := P) ⟨limits, p.scopes⟩ .root none hs
  show ∃ calls, P.Alike calls Eq (EStateM.bind (newEnv _ _ _) _ s)
    (EStateM.bind (newEnv _ _ _) _ s')
  unfold EStateM.bind
  generalize newEnv ⟨limits, p.scopes⟩ .root none s = r,
    newEnv ⟨limits, p.scopes⟩ .root none s' = r' at henv ⊢
  cases henv with
  | @ok env _ t t' henv ht =>
    cases henv
    have hentered : P.Like [topFrame env] { t with frames := [topFrame env] }
        { t' with frames := [topFrame env] } :=
      { ht with frames := rfl, stacked := ⟨rfl, List.pairwise_singleton .., Nat.zero_le _⟩ }
    exact ⟨_, ((runs_exec hcx hP hn h).bind fun e e' he => follows_finish he) hentered⟩
  | error he ht => exact ⟨[], .error he ht⟩
  | exempt he => exact ⟨[], .exempt he⟩

end Rewriting

/-! ## Reports -/

/-- Two reports that say the same up to the indices in a stop. The operands that are left are
compared when the run came to its end. -/
structure Report.Matches (r r' : Report) : Prop where
  output : r'.output = r.output
  result : r'.result.mapError Stop.unplaced = r.result.mapError Stop.unplaced
  stack : r.result.isOk = true → r'.stack = r.stack

theorem Report.Matches.trans {r₁ r₂ r₃ : Report} (h : r₁.Matches r₂) (h' : r₂.Matches r₃) :
    r₁.Matches r₃ where
  output := h'.output.trans h.output
  result := h'.result.trans h.result
  stack hok := by
    have hok' : r₂.result.isOk = true := by
      have hres := h.result
      cases h₁ : r₁.result with
      | error e =>
        rw [h₁] at hok
        cases hok
      | ok exit =>
        cases h₂ : r₂.result with
        | error e =>
          rw [h₁, h₂] at hres
          cases hres
        | ok exit' => rfl
    rw [h'.stack hok', h.stack hok]

/-- **A program that a sound pass rewrote runs like the original one**, if that ends in a way that
is not exempt. -/
theorem Rewriting.report_matches {P : Rewriting} {limits : Limits} {p : Program}
    {code : List Instruction}
    (hcx : Setup.Unlimited ⟨limits, p.scopes⟩) (hP : P.Sound ⟨limits, p.scopes⟩)
    (h : Rewritten P.rule p.code code) {n n' : Nat} (hn : n ≤ n') (room : Option Nat)
    (hends : ∀ e, (reportWithin n limits room p).result = .error e → ¬ P.exempt e) :
    (reportWithin n limits room p).Matches (reportWithin n' limits room { p with code }) := by
  obtain ⟨calls, hrun⟩ := exists_alike_runWithin hcx hP h hn
    (like_refl (s := { output := { room } }) ⟨rfl, .nil, Nat.le_refl _⟩)
  unfold reportWithin at hends ⊢
  generalize runWithin n limits p _ = r, runWithin n' limits { p with code } _ = r' at *
  cases hrun with
  | ok hexit hs =>
    cases hexit
    exact ⟨hs.output, rfl, fun _ => congrArg List.reverse hs.stack⟩
  | error he hs => exact ⟨hs.output, congrArg Except.error he, fun h => nomatch h⟩
  | exempt he => exact absurd he (hends _ rfl)

/-- A report that ends in an error is matched by one that does. -/
theorem Report.Matches.exists_error {r r' : Report} (h : r.Matches r') {e' : Stop}
    (he : r'.result = .error e') : ∃ e, r.result = .error e ∧ e'.unplaced = e.unplaced := by
  have hres := h.result
  rw [he] at hres
  cases hr : r.result with
  | ok exit =>
    rw [hr] at hres
    cases hres
  | error e =>
    rw [hr] at hres
    exact ⟨e, rfl, Except.error.inj hres⟩

theorem Stop.unplaced_eq_malformed_iff {e e' : Stop} (h : e'.unplaced = e.unplaced) :
    (∃ m, e = .fault (.malformed m)) ↔ ∃ m, e' = .fault (.malformed m) := by
  have hof : ∀ {e e' : Stop}, e'.unplaced = e.unplaced → (∃ m, e = .fault (.malformed m)) →
      ∃ m, e' = .fault (.malformed m) := by
    rintro _ e' h ⟨m, rfl⟩
    cases e' with
    | outOfFuel => cases h
    | fault e' =>
      cases e' with
      | malformed m' => exact ⟨m', rfl⟩
      | _ => cases h
  exact ⟨hof h, hof h.symm⟩

/-- Of two reports that say the same, both or neither find malformed code. -/
theorem Report.Matches.malformed_iff {r r' : Report} (h : r.Matches r') :
    (∃ e, r.result = .error (.fault (.malformed e))) ↔
      ∃ e, r'.result = .error (.fault (.malformed e)) := by
  have hres := h.result
  cases hr : r.result with
  | ok exit =>
    cases hr' : r'.result with
    | ok exit' => simp
    | error e' =>
      rw [hr, hr'] at hres
      cases hres
  | error e =>
    cases hr' : r'.result with
    | ok exit' =>
      rw [hr, hr'] at hres
      cases hres
    | error e' =>
      rw [hr, hr'] at hres
      simpa using Stop.unplaced_eq_malformed_iff (Except.error.inj hres)

open Relation (ReflTransGen) in
/-- **A whole chain of rewritings by a sound pass keeps what a program does.** -/
theorem Rewriting.report_matches_of_chain {P : Rewriting} {limits : Limits} {p : Program}
    {code : List Instruction} (hcx : Setup.Unlimited ⟨limits, p.scopes⟩)
    (hP : P.Sound ⟨limits, p.scopes⟩) (h : ReflTransGen (Contracts P.rule) p.code code) {n n' : Nat}
    (hn : n ≤ n') (room : Option Nat)
    (hends : ∀ e, (reportWithin n limits room p).result = .error e → ¬ P.exempt e) :
    (reportWithin n limits room p).Matches (reportWithin n' limits room { p with code }) := by
  induction h with
  | refl => exact report_matches hcx hP (rewritten_refl _) hn room hends
  | @tail mid code _ hc ih =>
    -- the run in between does not end in an exempt way either
    have hmid : ∀ e, (reportWithin n' limits room { p with code := mid }).result = .error e →
        ¬ P.exempt e := by
      intro e' he' hx
      obtain ⟨e, he, heq⟩ := ih.exists_error he'
      rw [← P.exempt_unplaced, heq, P.exempt_unplaced] at hx
      exact hends e he hx
    have hlast := report_matches (p := { p with code := mid }) hcx hP hc.rewritten
      (Nat.le_refl n') room hmid
    exact ih.trans hlast

end StackCode.Machine
