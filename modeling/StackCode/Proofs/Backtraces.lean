import Mathlib.Control.Monad.Basic
import StackCode.Proofs.CheckedHeights
import StackCode.Proofs.Congruence

/-!
# Backtraces

An exception collects the calls that it leaves, one by one, while every call that it leaves is
undone. What it collected is compared with the calls that were active where it was raised: with the
hooks `Hooks.held` the machine makes the same calls but undoes none that fails, so its run ends in
the state in which the exception was raised.

Where the two machines come to a result, they come to the same; where they stop, the frames that only
the second one still has are those that the exception has noted in the first (`Unwound`). The call
sites are indices into the program because all code that a run keeps for later is a stretch of it
(`Segment.Within`).
-/

namespace StackCode

/-! ## Stretches of a program -/

/-- The segment is a stretch of the program: its instructions stand where it says. -/
def Segment.Within (s : Segment) (p : Program) : Prop :=
  ∀ k i, s.code[k]? = some i → p.code[s.start + k]? = some i

namespace Segment

variable {p : Program} {i : Instruction} {rest : List Instruction} {start : Nat}

theorem within_segment (p : Program) : p.segment.Within p := by
  intro k i hk
  rwa [show p.segment.start + k = k from Nat.zero_add k]

theorem Within.head (h : Within ⟨start, i :: rest⟩ p) : p.code[start]? = some i := h 0 i rfl

theorem Within.tail (h : Within ⟨start, i :: rest⟩ p) : Within ⟨start + 1, rest⟩ p := by
  intro k j hj
  rw [show start + 1 + k = start + (k + 1) by omega]
  exact h (k + 1) j hj

/-- What is cut out of a stretch, and what follows it, are stretches. -/
theorem Within.parts {s body after : Segment} {sought : Terminator} {label : Option BlockLabel}
    (h : s.Within p) (hcut : s.takeBlock sought label = .ok (body, after)) :
    body.Within p ∧ after.Within p := by
  obtain ⟨start, code⟩ := s
  obtain ⟨mark, rfl, -⟩ := exists_mark_of_takeBlock hcut
  obtain ⟨hbody, hafter⟩ := start_of_takeBlock hcut
  constructor
  · intro k j hj
    have hlt : k < body.code.length := (List.getElem?_eq_some_iff.mp hj).1
    rw [hbody]
    exact h k j ((List.getElem?_append_left hlt).trans hj)
  · intro k j hj
    have hright : (body.code ++ mark :: after.code)[body.code.length + (k + 1)]? = some j := by
      rw [List.getElem?_append_right (Nat.le_add_right _ _), Nat.add_sub_cancel_left]
      exact hj
    rw [hafter, Nat.add_assoc start, Nat.add_assoc start, Nat.add_assoc, Nat.add_comm 1 k]
    exact h _ j hright

end Segment

/-! ## The calls of a program -/

namespace Program

/-- The program defines a method of that name. -/
def Defines (p : Program) (name : String) : Prop :=
  ∃ i ∈ p.code, ∃ scope, i.op = .defineMethod name scope

/-- The names of the top level, of the methods, and of the blocks in anything that has a name. -/
inductive Names (p : Program) : String → Prop
  | top : Names p "<main>"
  | method {name : String} (h : p.Defines name) : Names p name
  | block {home : String} (h : Names p home) : Names p ("block in " ++ home)

/-- The instruction can call what has that name: a message calls the method, a yield a block. -/
inductive Makes (p : Program) : Op → String → Prop
  | send {name : String} {argc : UInt64} {receiver withBlock : Bool} (h : p.Defines name) :
    Makes p (.send name argc receiver withBlock) name
  | yield {argc : UInt64} {home : String} (h : p.Names home) :
    Makes p (.yield argc) ("block in " ++ home)

/-- A call has one of the names that calls of the program have. -/
theorem Makes.names {p : Program} {op : Op} {name : String} (h : p.Makes op name) :
    p.Names name := by
  cases h with
  | send h => exact .method h
  | yield h => exact .block h

/-- The call is made by the instruction of the program that it names as its call site. -/
def Calls (p : Program) (f : Machine.Frame) : Prop :=
  ∃ i, p.code[f.callSite]? = some i ∧ p.Makes i.op f.name

end Program

namespace Machine

/-! ## Unwinding -/

/-- The frames are those of calls that the program makes, as many as the limit allows, and below
them that of the top level. -/
def Active (p : Program) (limits : Limits) (frames : List Frame) : Prop :=
  ∃ calls env, frames = calls ++ [topFrame env] ∧ calls.length ≤ limits.callDepth ∧
    ∀ f ∈ calls, p.Calls f

/-- All code of a run is a stretch of the program, kept under names of the program. -/
def terms (p : Program) : Terms where
  code seg := seg.Within p
  method name m := m.name = name ∧ p.Defines name ∧ m.body.Within p
  closure c := p.Names c.home ∧ c.body.Within p
  frame f := p.Names f.name
  tail := Segment.Within.tail
  parts := Segment.Within.parts
  define hcode hop hbody _ := ⟨rfl, ⟨_, List.mem_of_getElem? hcode.head, _, hop⟩, hbody⟩
  capture _ _ hbody hf := ⟨hf, hbody⟩

/-- The calls of the state are those of the program, and so is all code that it keeps for later. -/
structure Traced (p : Program) (limits : Limits) (s : State) : Prop where
  active : Active p limits s.frames
  kept : (terms p).Holds s.shared

/-- The stop has left no call yet; where there are too many calls, there are as many as the limit
allows. -/
def Stop.Fresh (limits : Limits) (depth : Nat) : Stop → Prop
  | .fault (.raised e) =>
    e.trace = [] ∧ (e.exception = .stackTooDeep → limits.callDepth ≤ depth)
  | _ => True

section

variable {α : Type} (p : Program) (limits : Limits)

/-- What a computation that starts in `s` comes to in the machine and in the one that undoes no
failed call: the same result, or the same stop, which in the first has left the calls that are
active in the second and were not active in `s`. -/
inductive Unwound (s : State) : EStateM.Result Stop State α → EStateM.Result Stop State α → Prop
  | ok {a : α} {t : State} (hframes : t.frames = s.frames) (ht : Traced p limits t) :
    Unwound s (.ok a t) (.ok a t)
  | error {e e' : Stop} {t u : State} (inner : List Frame) (he : e' = inner.foldl Stop.leave e)
    (hframes : t.frames = s.frames) (hinner : u.frames = inner ++ s.frames)
    (hactive : Active p limits u.frames) (hfresh : e.Fresh limits u.callDepth) :
    Unwound s (.error e' t) (.error e u)

/-- In every state of a run, what fails is unwound. -/
def Unwinds (α : Type) (m m' : Exec α) : Prop :=
  ∀ s, Traced p limits s → Unwound p limits s (m s) (m' s)

end

section

variable {p : Program} {limits : Limits} {s t : State} {α β : Type}

theorem Active.names {f : Frame} {outer : List Frame} (h : Active p limits (f :: outer)) :
    p.Names f.name := by
  obtain ⟨_ | ⟨g, calls⟩, env, heq, -, hcalls⟩ := h
  · cases heq
    exact .top
  · obtain ⟨rfl, -⟩ := List.cons.inj heq
    obtain ⟨i, -, hi⟩ := hcalls f List.mem_cons_self
    exact hi.names

/-- A call made within the limit is one of the active calls. -/
theorem Active.cons {f : Frame} {frames : List Frame} (h : Active p limits frames)
    (hdepth : frames.length - 1 < limits.callDepth) (hf : p.Calls f) :
    Active p limits (f :: frames) := by
  obtain ⟨calls, env, rfl, -, hcalls⟩ := h
  refine ⟨f :: calls, env, rfl, ?_, List.forall_mem_cons.mpr ⟨hf, hcalls⟩⟩
  rwa [List.length_append, List.length_singleton, Nat.add_sub_cancel] at hdepth

/-- There is always a current call. -/
theorem Active.exists_cons {frames : List Frame} (h : Active p limits frames) :
    ∃ f outer, frames = f :: outer := by
  obtain ⟨calls, env, rfl, -⟩ := h
  exact List.exists_cons_of_ne_nil (List.append_ne_nil_of_right_ne_nil _ (List.cons_ne_nil _ _))

theorem Traced.congr (hs : Traced p limits s) (hframes : t.frames = s.frames)
    (hshared : t.shared = s.shared) : Traced p limits t :=
  ⟨hframes ▸ hs.active, hshared ▸ hs.kept⟩

/-- An ordinary fault has not left any call yet. -/
theorem Fault.Ordinary.fresh {f : Fault} (hf : f.Ordinary) (depth : Nat) :
    (Stop.fault f).Fresh limits depth := by
  cases f with
  | raised e => exact ⟨hf.1, fun he => absurd he hf.2⟩
  | _ => trivial

/-! ### Operations -/

/-- A stop without a call that it leaves. -/
theorem unwound_stop {e : Stop} (hs : Traced p limits s) (hframes : t.frames = s.frames)
    (hfresh : e.Fresh limits t.callDepth) :
    Unwound (α := α) p limits s (.error e t) (.error e t) :=
  .error [] rfl hframes hframes (hframes ▸ hs.active) hfresh

/-- What matters of the state before are its frames. -/
theorem Unwound.congr {r r' : EStateM.Result Stop State α} (h : Unwound p limits t r r')
    (hframes : t.frames = s.frames) : Unwound p limits s r r' := by
  cases h with
  | ok hsame ht => exact .ok (hsame.trans hframes) ht
  | error inner he hsame hinner hactive hfresh =>
    exact .error inner he (hsame.trans hframes) (hframes ▸ hinner) hactive hfresh

/-- A stop of the first computation is the stop of both. -/
theorem unwinds_bind {m m' : Exec α} {f f' : α → Exec β} (hm : Unwinds p limits α m m')
    (hf : ∀ a, Unwinds p limits β (f a) (f' a)) : Unwinds p limits β (m >>= f) (m' >>= f') := by
  intro s hs
  have h := hm s hs
  show Unwound p limits s (EStateM.bind m f s) (EStateM.bind m' f' s)
  unfold EStateM.bind
  generalize m s = r, m' s = r' at h
  cases h with
  | ok hframes ht => exact (hf _ _ ht).congr hframes
  | error inner he hframes hinner hactive hfresh =>
    exact .error inner he hframes hinner hactive hfresh

theorem OnStack.unwinds {m : Exec α} (h : OnStack m) : Unwinds p limits α m m := by
  intro s hs
  rcases h s with ⟨a, stack, heq⟩ | ⟨f, heq, hf⟩
  · rw [heq]
    exact .ok rfl (hs.congr rfl rfl)
  · rw [heq]
    exact unwound_stop hs rfl (hf.fresh _)

theorem unwinds_write (text : String) : Unwinds p limits Unit (write text) (write text) := by
  intro s hs
  unfold write
  cases s.output.room with
  | none => exact .ok rfl (hs.congr rfl rfl)
  | some room =>
    dsimp only
    split
    · exact .ok rfl (hs.congr rfl rfl)
    · exact unwound_stop hs rfl trivial

theorem unwinds_tick (cx : Setup) : Unwinds p limits Unit (tick cx) (tick cx) := by
  intro s hs
  rw [tick_eq]
  unfold Limits.exceeded?
  cases cx.limits.steps.filter (· < s.steps + 1) with
  | some max => exact unwound_stop hs rfl trivial
  | none =>
    cases cx.limits.stack.filter (· < s.stack.length) with
    | some max => exact unwound_stop hs rfl trivial
    | none => exact .ok rfl (hs.congr rfl rfl)

/-- The operations of the machine are unwound; the current call has a name of the program. -/
theorem congruence_unwinds : Congruence (terms p) (Paired (Unwinds p limits)) where
  pure a := (onStack_pure a).unwinds
  bind := unwinds_bind
  fail f hf := (onStack_fail hf).unwinds
  read hf s hs := paired_of_shared hf rfl hs.kept s hs
  update g hg s hs := .ok rfl ⟨hs.active, hg _ hs.kept⟩
  push v := (onStack_push v).unwinds
  pop index := (onStack_pop index).unwinds
  peek index := (onStack_peek index).unwinds
  popN n index := (onStack_popN n index).unwinds
  frame {α f} index hf s hs := by
    obtain ⟨g, outer, hframes⟩ := hs.active.exists_cons
    have hframe := frame_of_frames hframes index
    show Unwound p limits s (EStateM.bind _ (f false) s) (EStateM.bind _ (f true) s)
    simp only [EStateM.bind, hframe]
    exact hf g (Active.names (hframes ▸ hs.active)) s hs
  write := unwinds_write

/-! ### Calls -/

/-- Leaving a call takes its operands off the stack. -/
theorem leaveCall_of_frames {f : Frame} {outer : List Frame} (ht : t.frames = f :: outer) :
    t.leaveCall = { t with frames := outer }.truncate f.base := by
  unfold State.leaveCall
  rw [ht]

/-- **The end of a call notes the call.** Its frame is the innermost one of those that the exception
has not left. -/
theorem Unwound.leave {f : Frame} {r r' : EStateM.Result Stop State Completion}
    (hs : Active p limits s.frames) (hframes : t.frames = f :: s.frames)
    (h : Unwound p limits t r r') : Unwound p limits s (leaveCall r) (leaveHeld r') := by
  cases h with
  | @ok c u hsame hu =>
    have hleave := leaveCall_of_frames (hsame.trans hframes)
    have hout : u.leaveCall.frames = s.frames := by rw [hleave]; rfl
    refine .ok hout ⟨hout ▸ hs, ?_⟩
    rw [hleave]
    exact hu.kept
  | @error e e' u v inner he hsame hinner hactive hfresh =>
    have hleave := leaveCall_of_frames (hsame.trans hframes)
    refine .error (inner ++ [f]) ?_ (by rw [hleave]; rfl) ?_ hactive hfresh
    · rw [hsame, hframes, he, List.foldl_append]
      rfl
    · rw [hinner, hframes, List.append_assoc]
      rfl

/-- A call is one that the program makes. -/
theorem Program.calls_of_calls {index : Nat} {i : Instruction} {rest : List Instruction}
    {body : Segment} {scope : ScopeId} {frame : EnvId → Nat → Frame}
    (hcode : Segment.Within ⟨index, i :: rest⟩ p)
    (h : (terms p).Calls i.op index body scope frame) :
    body.Within p ∧ ∀ env base, p.Calls (frame env base) := by
  cases h with
  | send hop hm =>
    obtain ⟨hname, hdefines, hbody⟩ := hm
    exact ⟨hbody, fun _ _ => ⟨i, hcode.head, hop ▸ hname ▸ .send (hname ▸ hdefines)⟩⟩
  | yield hop hc => exact ⟨hc.2, fun _ _ => ⟨i, hcode.head, hop ▸ .yield hc.1⟩⟩

end

/-! ### Code -/

section

variable {p : Program} {cx : Setup}

/-- **A call that fails** is undone by one machine, and noted in the trace, and kept by the
other. -/
theorem unwinds_call {run : Bool → Segment → Exec Ended} {body : Segment}
    (hbody : Unwinds p cx.limits Ended (run false body) (run true body)) (scope : ScopeId)
    (parent : Option EnvId) (isBlock : Bool) {frame : EnvId → Nat → Frame}
    (hframe : ∀ env base, p.Calls (frame env base)) :
    Unwinds p cx.limits Completion
      (callBy leaveCall cx (run false) body scope parent isBlock frame)
      (callBy leaveHeld cx (run true) body scope parent isBlock frame) := by
  intro s hs
  rw [callBy_eq, callBy_eq]
  split
  · rename_i hdepth
    exact unwound_stop hs rfl ⟨rfl, fun _ => hdepth⟩
  · rename_i hdepth
    cases Env.ofScope? cx.scopes scope parent with
    | none => exact unwound_stop hs rfl trivial
    | some env =>
      -- the body is unwound down to the new frame, and the end of the call takes that one too
      have hwhole := unwinds_bind hbody (congruence_unwinds.complete isBlock)
      refine Unwound.leave hs.active rfl (hwhole _ ⟨?_, hs.kept.congr rfl rfl⟩)
      exact hs.active.cons (Nat.lt_of_not_le hdepth) (hframe _ _)

theorem unwinds_outOfFuel {α : Type} :
    Unwinds p cx.limits α (throw .outOfFuel) (throw .outOfFuel) :=
  fun _ hs => unwound_stop hs rfl trivial

/-- The machine, and the one that undoes no failed call. -/
def Hooks.heldOrNot (cx : Setup) (second : Bool) : Hooks := cond second (.held cx) (.plain cx)

/-- Instructions are unwound if the code that they run is. -/
theorem upholds_unwinds {run : Bool → Segment → Exec Ended} (n : Nat)
    (hrun : ∀ {seg}, seg.Within p → Unwinds p cx.limits Ended (run false seg) (run true seg)) :
    Upholds (terms p) (Paired (Unwinds p cx.limits)) (fun second => (Hooks.heldOrNot cx second).leave)
      (fun _ => cx) run fun _ => n where
  toCongruence := congruence_unwinds
  runs := hrun
  lookup _ env _ _ := congruence_unwinds.checkLookup (fun _ => rfl) (fun _ => rfl)
    (fun _ _ hs => unwound_stop hs rfl trivial) env _
  call hcode hcalls parent isBlock := by
    obtain ⟨hbody, hframe⟩ := Program.calls_of_calls hcode hcalls
    exact unwinds_call (hrun hbody) _ parent isBlock hframe
  whileTrue htest hbody index s hs :=
    congruence_unwinds.loop unwinds_outOfFuel (hrun htest) (hrun hbody)
      (onStack_truncate _).unwinds index n s hs

/-- **A stretch of the program is unwound**, for as long as the fuel lasts. -/
theorem unwinds_exec (cx : Setup) (n : Nat) {seg : Segment} (hseg : seg.Within p) :
    Unwinds p cx.limits Ended (execBy (.plain cx) cx n seg) (execBy (.held cx) cx n seg) := by
  have htick : ∀ i, Paired (Unwinds p cx.limits) Unit fun second =>
      (Hooks.heldOrNot cx second).before i := fun _ => unwinds_tick cx
  exact congruence_unwinds.execBy unwinds_outOfFuel htick upholds_unwinds n hseg

end

/-! ## Runs -/

/-- What an exception has collected: only an exception collects, and it keeps what it was. -/
theorem exists_raised_of_foldl_leave {calls : List Frame} {stop : Stop} {e : Raised}
    (h : .fault (.raised e) = calls.foldl Stop.leave stop) :
    ∃ trace, stop = .fault (.raised ⟨e.exception, trace⟩) ∧
      e.trace = trace ++ calls.map fun f => ⟨f.name, f.callSite⟩ := by
  induction calls generalizing stop with
  | nil => exact ⟨e.trace, h.symm, (List.append_nil _).symm⟩
  | cons f calls ih =>
    obtain ⟨trace, hleave, htrace⟩ := ih h
    cases stop with
    | outOfFuel => cases hleave
    | fault fault =>
      cases fault with
      | raised x =>
        obtain ⟨hsame, rfl⟩ := Raised.mk.inj (Fault.raised.inj (Stop.fault.inj hleave))
        exact ⟨x.trace, hsame ▸ rfl, htrace.trans (List.append_assoc _ _ _)⟩
      | _ => cases hleave

/-- **A run is unwound** from its top level, if it has one. -/
theorem unwound_run (fuel : Nat) (limits : Limits) (room : Option Nat) (p : Program) :
    runBy .plain fuel limits p { output := { room } } =
      fail (.missingScope .root) { output := { room } } ∨
    ∃ start env, start.frames = [topFrame env] ∧
      Unwound p limits start (runBy .plain fuel limits p { output := { room } })
        (runBy .held fuel limits p { output := { room } }) := by
  rw [runBy_eq, runBy_eq]
  cases Env.ofScope? p.scopes .root none with
  | none => exact .inl rfl
  | some env =>
    have hwhole := unwinds_bind (unwinds_exec ⟨limits, p.scopes⟩ fuel (Segment.within_segment p))
      (congruence_unwinds.finish fun _ hs => .ok rfl hs)
    refine .inr ⟨_, _, rfl, hwhole _ ⟨⟨[], _, rfl, Nat.zero_le _, List.forall_mem_nil _⟩, ?_⟩⟩
    exact ((terms p).holds_init { room }).congr rfl rfl

/-- **A backtrace names the active calls.** A run that ends with an exception would, if no call were
undone, end in the state in which it was raised. The exception has one entry for every call that is
active there, the innermost first. There are no more of them than the limit allows, and as many if
there are too many; each was made by the instruction whose index the entry gives, a message for a
method of that name or a yield for a block. -/
theorem backtrace_names_active_calls {fuel : Nat} {limits : Limits} {room : Option Nat}
    {p : Program} {e : Raised}
    (h : (reportWithin fuel limits room p).result = .error (.fault (.raised e))) :
    ∃ s calls env,
      runBy .held fuel limits p { output := { room } } =
        .error (.fault (.raised ⟨e.exception, []⟩)) s ∧
      s.frames = calls ++ [topFrame env] ∧
      e.trace = calls.map (fun f => ⟨f.name, f.callSite⟩) ∧
      e.trace.map Activation.text = calls.map (fun f =>
        "in '" ++ f.name ++ "' (called at instruction " ++ toString f.callSite ++ ")") ∧
      calls.length ≤ limits.callDepth ∧
      (e.exception = .stackTooDeep → calls.length = limits.callDepth) ∧
      ∀ f ∈ calls, p.Calls f := by
  obtain ⟨t, hrun⟩ : ∃ t, runBy .plain fuel limits p { output := { room } } =
      .error (.fault (.raised e)) t := by
    rw [← runWithin_eq_runBy]
    unfold reportWithin at h
    split at h
    · cases h
    · rename_i stop t heq
      cases h
      exact ⟨t, heq⟩
  rcases unwound_run fuel limits room p with hroot | ⟨start, env, htop, hunwound⟩
  · cases hrun.symm.trans hroot
  rw [hrun] at hunwound
  generalize runBy .held fuel limits p { output := { room } } = held at hunwound ⊢
  cases hunwound with
  | @error stop _ _ u calls he _ hinner hactive hfresh =>
    obtain ⟨trace, rfl, htrace⟩ := exists_raised_of_foldl_leave he
    obtain ⟨rfl, hdepth⟩ := hfresh
    obtain ⟨calls', env', hframes, hle, hcalls⟩ := hactive
    -- the run starts with the top level alone, so the calls that it has left are all there are
    rw [htop] at hinner
    obtain ⟨rfl, -⟩ := List.append_inj' (hframes.symm.trans hinner) rfl
    refine ⟨u, calls', env, rfl, hinner, htrace, ?_, hle, fun hdeep => ?_, hcalls⟩
    · rw [htrace]
      exact List.map_map
    · have hcount : u.callDepth = calls'.length := by
        rw [State.callDepth, hinner, List.length_append, List.length_singleton, Nat.add_sub_cancel]
      exact Nat.le_antisymm hle (hcount ▸ hdepth hdeep)

/-- The method `each` yields, and the block that it is called with divides by zero. -/
def dividing : Program where
  code := [⟨.defineMethod "each" ⟨1⟩, .root⟩, ⟨.yield 0, ⟨1⟩⟩, ⟨.endBlock .method, ⟨1⟩⟩,
    ⟨.pop, .root⟩, ⟨.defineBlock ⟨2⟩, .root⟩, ⟨.pushInt 1, ⟨2⟩⟩, ⟨.pushInt 0, ⟨2⟩⟩,
    ⟨.send "/" 1 true false, ⟨2⟩⟩, ⟨.endBlock .block, ⟨2⟩⟩, ⟨.send "each" 0 false true, .root⟩]
  scopes := ((ScopeTree.initial.push .root .method).1.push .root .block).1

theorem backtrace_names_active_calls_dividing :
    dividing.validate = .ok () ∧
    ∃ s calls env,
      runBy .held 12 {} dividing {} = .error (.fault (.raised ⟨.dividedByZero, []⟩)) s ∧
      s.frames = calls ++ [topFrame env] ∧
      calls.map (fun f => (f.name, f.callSite)) = [("block in <main>", 1), ("each", 9)] ∧
      ∀ f ∈ calls, dividing.Calls f := by
  have hresult : (reportWithin 12 {} none dividing).result = .error (.fault (.raised
      ⟨.dividedByZero, [⟨"block in <main>", 1⟩, ⟨"each", 9⟩]⟩)) := by decide +kernel
  obtain ⟨s, calls, env, hheld, hframes, htrace, -, -, -, hcalls⟩ :=
    backtrace_names_active_calls hresult
  refine ⟨by decide +kernel, s, calls, env, hheld, hframes, ?_, hcalls⟩
  have hpairs := congrArg (List.map fun a : Activation => (a.name, a.callSite)) htrace
  rw [List.map_map] at hpairs
  exact hpairs.symm

end Machine

end StackCode
