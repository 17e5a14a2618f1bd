import StackCode.Proofs.Running

/-!
# Calls and loops of disciplined code

What calls, messages and loops do in a run of disciplined code, given what the code inside them does
(`RunsNested`): they come back with the calls and the height that they found, or with a signal that
is allowed where they stand.

Two machines are compared on the way. The second one may check lookups where the first does not, and
it calls a *watch* before every instruction (`Hooks.watched`). A quiet watch is any computation that
does nothing as long as the searches for a variable in the text and in the run agree.
-/

namespace StackCode.Machine

/-! ## Watches -/

/-- A watch that does nothing where the lookups of an instruction agree. -/
def Quiet (T : ScopeTree) (watch : Instruction → Exec Unit) : Prop :=
  ∀ i s, LookupsAgree T i s → watch i s = .ok () s

/-- The setup with the check of lookups on or off. -/
def Setup.checking (cx : Setup) (checkScopes : Bool) : Setup :=
  { cx with limits := { cx.limits with checkScopes } }

/-! ## How code ends -/

/-- The signals that code may raise at a site. -/
def Allows (site : Site) : Signal → Prop
  | .breakOut => site.loop.isSome
  | .next none => site.loop.isSome
  | .next (some _) => site.loop = none ∧ site.body = .block
  | .ret _ => site.body ≠ .block
  | .halt => True

/-- The state at a point of the code. -/
structure At (T : ScopeTree) (p : Point) (c : Calls) (s : State) : Prop where
  running : Running T c p.height s
  home : c.home = p.site.scope
  block : p.awaiting = true → ∃ id rest, s.stack = .proc id :: rest

/-- The state in which a signal was raised: the operands from before the innermost loop are there.
-/
def Raises (T : ScopeTree) (site : Site) (c : Calls) (signal : Signal) (s : State) : Prop :=
  Allows site signal ∧ ∃ h, site.loop.getD 0 ≤ h ∧ Running T c h s

/-- How code ends that leads from `p` to `q`. -/
def Ends (T : ScopeTree) (p q : Point) (c : Calls) : Ended → State → Prop
  | (none, _), s => At T q c s
  | (some signal, _), s => Raises T p.site c signal s

/-- Both machines run nested code alike and well. -/
def RunsNested (T : ScopeTree) (run run' : Segment → Exec Ended) : Prop :=
  ∀ {p q : Point} {code : List Instruction}, Nested (placement T) p code q →
    ∀ (start : Nat) {c : Calls} {s : State}, At T p c s →
      Together (run ⟨start, code⟩) (run' ⟨start, code⟩) (Ends T p q c) s

variable {T : ScopeTree} {cx : Setup} {b : Bool} {run run' : Segment → Exec Ended} {c : Calls}
  {h k : Nat} {s : State} {p q : Point} {index : Nat}

/-- Where no block is awaited, the calls and the height are all there is to say. -/
theorem At.of_running (hs : Running T c h s) (hhome : c.home = p.site.scope) :
    At T (p.atHeight h) c s :=
  ⟨hs, hhome, fun h => absurd h (by simp)⟩

/-! ## Calls -/

/-- A body of disciplined code has one value at its end, or raises a signal that it may. -/
theorem ensures_complete {kind : BodyKind} {scope : ScopeId} {e : Ended}
    (hq : q.height = 1) (he : Ends T (.start kind scope) q c e s) :
    Ensures (complete (kind = .block) e) (fun _ s' => ∃ k, Running T c k s') s := by
  obtain ⟨signal, stop⟩ := e
  cases signal with
  | none =>
    have hs : Running T c (0 + 1) s := by
      have := he.running
      rwa [hq] at this
    exact (ensures_pop hs).bind fun v s' hs' => meets_pure ⟨0, hs'⟩
  | some signal =>
    obtain ⟨hfits, k, -, hs⟩ := he
    cases signal with
    | breakOut => cases hfits
    | halt => exact meets_pure ⟨k, hs⟩
    | ret v =>
      have : kind ≠ .block := hfits
      simp only [complete, this]
      exact meets_pure ⟨k, hs⟩
    | next v =>
      cases v with
      | none => cases hfits
      | some v =>
        have : kind = .block := hfits.2
        simp only [complete, this]
        exact meets_pure ⟨k, hs⟩

/-- A call gives back the height from before it, however its body ends. -/
theorem together_leaveCall {m m' : Exec Completion} {f : Frame} {home : ScopeId}
    (hm : Together m m' (fun _ s' => ∃ k, Running T (c.enter f home) k s') s)
    (hbase : f.base = c.frame.base + h) :
    Together (fun s => leaveCall (m s)) (fun s => leaveCall (m' s)) (fun _ => Running T c h) s := by
  obtain ⟨heq, hm⟩ := hm
  refine ⟨congrArg leaveCall heq, meets_leaveCall (fun _ f he => he.leave f) hm fun _ s' hs => ?_⟩
  obtain ⟨k, hk⟩ := hs
  exact hk.left hbase

/-- A scope of the tree has an environment made for it. -/
theorem newEnv_eq {scope : Scope} {home : ScopeId} {parent : Option EnvId} (hcx : cx.scopes = T)
    (hget : T.get? home = some scope) : newEnv cx home parent s =
      .ok s.envs.next { s with envs := s.envs.push (freshEnv scope home parent) } := by
  have : Env.ofScope? cx.scopes home parent = some (freshEnv scope home parent) := by
    rw [hcx, Env.ofScope?, hget]
    rfl
  simp only [newEnv, this]
  rfl

/-- **A call of a body comes back**, with the calls and the height from before it. -/
theorem together_call (hrun : RunsNested T run run') (hcx : cx.scopes = T) (hs : Running T c h s)
    {kind : BodyKind} {scope : Scope} {home : ScopeId} {parent : Option EnvId}
    {body : Segment} (hbody : IsBody T kind home body.code) (hget : T.get? home = some scope)
    (hc : CanEnter T s scope parent) {frame : EnvId → Nat → Frame}
    (henv : ∀ env base, (frame env base).env = env)
    (hbase : ∀ env base, (frame env base).base = base) :
    Together (call cx run body home parent (kind = .block) frame)
      (call (cx.checking b) run' body home parent (kind = .block) frame)
      (fun _ => Running T c h) s := by
  unfold call
  refine together_get ?_
  show Together (if cx.limits.callDepth ≤ _ then _ else _)
    (if cx.limits.callDepth ≤ _ then _ else _) _ _
  split
  · exact Meets.andThen (R := fun _ _ => False) (ensures_raise _) fun _ _ h => h.elim
  refine together_of_eq (newEnv_eq hcx hget) (newEnv_eq hcx hget) (together_modify ?_)
  have hin := hs.entered hget hc (henv s.envs.next s.stack.length) (hbase _ _)
  obtain ⟨q, hnested, hq⟩ := hbody
  have hstart : At T (.start kind home) (c.enter (frame s.envs.next s.stack.length) home) _ :=
    ⟨hin, rfl, fun h => absurd h (by simp [Point.start])⟩
  have hrun := (hrun hnested body.start hstart).bind fun e s' he =>
    (ensures_complete hq he).together
  exact together_leaveCall hrun ((hbase _ _).trans hs.height)

/-! ## Messages -/

theorem canEnter_method {scope : Scope} (hhoist : scope.hoist = false)
    (hblock : scope.block = false) : CanEnter T s scope none :=
  ⟨hhoist, fun _ h => by rw [hblock] at h; cases h⟩

/-- A method that was defined in the run is called in the scope of its body. -/
theorem together_callMethod (hrun : RunsNested T run run') (hcx : cx.scopes = T)
    (hs : Running T c h s) {name : String} {m : Method} (hm : s.methods.get? name = some m)
    {self : Value} {args : List Value} {block : Option ProcId} {callSite : Nat} :
    Together (callMethod cx run m self args block callSite)
      (callMethod (cx.checking b) run' m self args block callSite) (fun _ => Running T c h) s := by
  obtain ⟨hopens, hbody⟩ := hs.valid.methods name m hm
  obtain ⟨scope, hget, hhoist, hblock⟩ := Op.opensMethod_iff.mp hopens
  exact together_call hrun hcx hs hbody hget (canEnter_method hhoist hblock)
    (fun _ _ => rfl) (fun _ _ => rfl)

/-- A block is called in the environment that it was captured in. -/
theorem together_callBlock (hrun : RunsNested T run run') (hcx : cx.scopes = T)
    (hs : Running T c h s) {id : ProcId} {closure : Closure} (hc : s.procs[id]? = some closure)
    {args : List Value} {callSite : Nat} :
    Together (callBlock cx run closure args callSite)
      (callBlock (cx.checking b) run' closure args callSite) (fun _ => Running T c h) s := by
  obtain ⟨⟨env, henv, hopens⟩, hbody⟩ := hs.valid.procs id closure hc
  obtain ⟨scope, outer, hget, hhoist, -, houter, htarget⟩ := Op.opensBlock_iff.mp hopens
  have henter : CanEnter T s scope (some closure.env) := by
    refine ⟨hhoist, fun outer' _ ho => ⟨closure.env, env, rfl, henv, ?_⟩⟩
    rw [houter] at ho
    cases ho
    exact htarget
  exact together_call hrun hcx hs hbody hget henter (fun _ _ => rfl) (fun _ _ => rfl)

theorem Running.withOutput (hs : Running T c h s) (out : Output) :
    Running T c h { s with output := out } :=
  hs.congr rfl rfl rfl rfl hs.height

/-- Whatever method a message finds, it leaves the operands of the sender. -/
theorem together_dispatch (hrun : RunsNested T run run') (hcx : cx.scopes = T)
    (hs : Running T c h s) {receiver : Option Value} {message : String} {args : List Value}
    {block : Option ProcId} {target : Value} :
    Together (dispatch cx run receiver message args block index target)
      (dispatch (cx.checking b) run' receiver message args block index target)
      (fun _ => Running T c h) s := by
  simp only [dispatch_eq]
  split
  · exact together_pure hs
  · exact together_raise _
  refine together_get ?_
  split
  · rename_i m hm
    split
    · exact together_raise _
    · exact together_callMethod hrun hcx hs hm
  split
  · exact (meets_writeLines (fun _ out hs => hs.withOutput out) trivial hs args).andThen
      fun _ _ hs' => together_pure hs'
  · exact (meets_writeAll (fun _ out hs => hs.withOutput out) trivial hs _ args).andThen
      fun _ _ hs' => together_pure hs'
  · exact together_raise _

/-- **A message never goes wrong because of the code**: the program answers it or refuses it. -/
theorem together_send (hrun : RunsNested T run run') (hcx : cx.scopes = T) (hs : Running T c h s)
    {receiver : Option Value} {message : String} {args : List Value} {block : Option ProcId} :
    Together (send cx run receiver message args block index)
      (send (cx.checking b) run' receiver message args block index) (fun _ => Running T c h) s := by
  rw [send_eq, send_eq]
  cases receiver with
  | some v => exact together_dispatch hrun hcx hs
  | none => exact together_of_eq (frame_eq hs) (frame_eq hs) (together_dispatch hrun hcx hs)

/-! ## Signals -/

/-- How an instruction leaves the current call: with `h` operands, or with a signal. -/
def Leaves (T : ScopeTree) (site : Site) (c : Calls) (h : Nat) : Option Signal → State → Prop
  | none, s => Running T c h s
  | some signal, s => Raises T site c signal s

/-- How an instruction ends that stands at `p` in code that leads to `q`. -/
def Steps (T : ScopeTree) (p q : Point) (c : Calls) : Option Signal × Segment → State → Prop
  | (none, after), s =>
    ∃ p', p'.site = p.site ∧ Nested (placement T) p' after.code q ∧ At T p' c s
  | (some signal, _), s => Raises T p.site c signal s

/-- An instruction without a block that leaves height `h` goes on to code nested at `h`. -/
theorem steps_of_leaves {after : Segment} {signal : Option Signal} (hhome : c.home = p.site.scope)
    (hr : Nested (placement T) (p.atHeight h) after.code q) (hl : Leaves T p.site c h signal s) :
    Steps T p q c (signal, after) s := by
  cases signal with
  | none => exact ⟨p.atHeight h, rfl, hr, .of_running hl hhome⟩
  | some signal => exact hl

/-- What a call leaves: its value on the stack, or the signal to halt. -/
theorem ensures_deliver {site : Site} (hs : Running T c h s) (hfloor : site.loop.getD 0 ≤ h)
    (r : Completion) : Ensures (deliver r) (Leaves T site c (h + 1)) s := by
  cases r with
  | value v => exact (ensures_push hs).bind fun _ _ hs' => meets_pure hs'
  | halt => exact meets_pure ⟨trivial, h, hfloor, hs⟩

/-- A signal that leaves a loop, other than those that the loop takes up. -/
theorem Raises.outward {signal : Signal} (hfloor : p.floor ≤ p.height)
    (hbreak : signal ≠ .breakOut) (hnext : signal ≠ .next none)
    (hr : Raises T p.inLoop.site c signal s) : Raises T p.site c signal s := by
  obtain ⟨hallows, k, hk, hs⟩ := hr
  refine ⟨?_, k, Nat.le_trans hfloor hk, hs⟩
  cases signal with
  | breakOut => exact absurd rfl hbreak
  | halt => trivial
  | ret v => exact hallows
  | next v =>
    cases v with
    | none => exact absurd rfl hnext
    | some v => cases hallows.1

theorem together_truncate (hs : Running T c k s) (hk : h ≤ k) {β : Type} {Q : β → State → Prop}
    {f f' : Unit → Exec β}
    (hf : ∀ s', Running T c h s' → Together (f ()) (f' ()) Q s') :
    Together (truncate (c.frame.base + h) >>= f) (truncate (c.frame.base + h) >>= f') Q s :=
  together_modify (hf _ (hs.truncated hk))

/-- **A loop leaves the height that it found**, however many rounds it makes. -/
theorem together_loop (hrun : RunsNested T run run') (hhome : c.home = p.site.scope)
    (hfloor : p.floor ≤ p.height) {t b : Point} {test body : List Instruction}
    (htest : Nested (placement T) p.inLoop test t) (ht : t.height = p.height + 1)
    (hbody : Nested (placement T) p.inLoop body b) (hb : b.height = p.height)
    (atTest atBody n : Nat) (hs : Running T c p.height s) :
    Together (loop run ⟨atTest, test⟩ ⟨atBody, body⟩ index (c.frame.base + p.height) n)
      (loop run' ⟨atTest, test⟩ ⟨atBody, body⟩ index (c.frame.base + p.height) n)
      (Leaves T p.site c p.height) s := by
  have hin : ∀ {s}, Running T c p.height s → At T p.inLoop c s := fun hs =>
    ⟨hs, hhome, fun h => absurd h (by simp [Point.inLoop])⟩
  -- on the rounds: each starts at the height of the first, because a signal that the loop takes up
  -- cuts the stack down to it
  induction n generalizing s with
  | zero => exact ⟨rfl, trivial⟩
  | succ n ih =>
    unfold loop
    refine (hrun htest atTest (hin hs)).bind fun e s' he => ?_
    obtain ⟨signal, stop⟩ := e
    split
    · rename_i heq
      cases heq
      obtain ⟨-, k, hk, hs'⟩ := he
      exact together_truncate hs' hk fun _ hs'' => together_pure hs''
    · rename_i heq
      cases heq
      obtain ⟨-, k, hk, hs'⟩ := he
      exact together_truncate hs' hk fun _ hs'' => ih hs''
    · rename_i hbreak hnext heq
      cases heq
      exact together_pure (he.outward hfloor (by simpa using hbreak) (by simpa using hnext))
    · rename_i heq
      cases heq
      have hs' : Running T c (p.height + 1) s' := ht ▸ he.running
      refine (ensures_pop hs').andThen fun v s'' hs'' => ?_
      split
      · refine (hrun hbody atBody (hin hs'')).bind fun e s' he => ?_
        obtain ⟨signal, stop⟩ := e
        split
        · rename_i heq
          cases heq
          obtain ⟨-, k, hk, hs'⟩ := he
          exact together_truncate hs' hk fun _ hs'' => together_pure hs''
        · rename_i heq
          cases heq
          exact together_truncate he.running (Nat.le_of_eq hb.symm) fun _ hs'' => ih hs''
        · rename_i heq
          cases heq
          obtain ⟨-, k, hk, hs'⟩ := he
          exact together_truncate hs' hk fun _ hs'' => ih hs''
        · rename_i hbreak hnext heq
          cases heq
          exact together_pure (he.outward hfloor (by simpa using hbreak) (by simpa using hnext))
      · exact together_truncate hs'' (Nat.le_refl _) fun _ hs'' => together_pure hs''

end StackCode.Machine
