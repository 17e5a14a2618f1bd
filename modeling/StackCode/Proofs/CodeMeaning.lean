import StackCode.Proofs.Congruence
import StackCode.Proofs.Limit
import StackCode.Proofs.RewrittenRuns
import StackCode.Proofs.Soundness

/-!
# What code comes to

`den cx seg` is the limit of the runs of a segment: what they come to with fuel enough, and nothing
when the code runs for ever. It obeys the equations that one expects of code. An instruction runs
and then what follows it (`den_cons`); nested code in front of other code runs first
(`den_append`); a branch, a loop and a body are run when their turn comes (`den_cond`, `den_loop`,
`lim_call`).

Neither the instructions of a run nor its operands are limited here.
-/

namespace StackCode.Machine

instance : Fuelled Stop := ⟨.outOfFuel⟩

variable {cx : Setup} {run run' : Segment → Exec Ended} {n n' : Nat}

/-! ## More fuel -/

/-- Leaving a call neither finds fuel nor loses it. -/
theorem ranOut_leaveCall_iff {r : EStateM.Result Stop State Completion} :
    RanOut (leaveCall r) ↔ RanOut r := by
  cases r with
  | ok c s => exact iff_of_false (not_ranOut_ok c _) (not_ranOut_ok c s)
  | error e s =>
    have hleave : ∀ f, e.leave f = .outOfFuel ↔ e = .outOfFuel := by
      intro f
      cases e with
      | outOfFuel => exact .rfl
      | fault e => cases e <;> simp [Stop.leave]
    unfold leaveCall
    rw [ranOut_error_iff, ranOut_error_iff]
    cases s.frames with
    | nil => exact .rfl
    | cons f rest => exact hleave f

section

variable (h : ∀ seg, Improves (run seg) (run' seg))

include h

/-- A call with more fuel inside it answers as before, and perhaps more often. -/
theorem improves_call (body : Segment) (scope : ScopeId) (parent : Option EnvId) (isBlock : Bool)
    (frame : EnvId → Nat → Frame) : Improves (call cx run body scope parent isBlock frame)
      (call cx run' body scope parent isBlock frame) := by
  refine (improves_refl _).bind fun s => ?_
  have hbody : Improves (fun s => leaveCall ((run body >>= complete isBlock) s))
      fun s => leaveCall ((run' body >>= complete isBlock) s) :=
    ((h body).bind fun _ => improves_refl _).mapResult fun _ => ranOut_leaveCall_iff.mpr
  split
  · exact improves_refl _
  · exact (improves_refl _).bind fun _ => (improves_refl _).bind fun _ => hbody

end

/-! ## Rounds of a loop -/

/-- What the signal at the end of a round means: the loop ends, it goes on, or the signal is for
something around it. -/
def endRound (base : Nat) : Option Signal → Exec (Option (Option Signal))
  | some .breakOut => do truncate base; return some none
  | none | some (.next none) => do truncate base; return none
  | some other => return some (some other)

/-- One round of a loop. -/
def loopRound (run : Segment → Exec Ended) (test body : Segment) (index base : Nat) :
    Exec (Option (Option Signal)) := do
  match (← run test).1 with
  | some signal => endRound base (some signal)
  | none =>
    if (← pop index).isTruthy then endRound base (← run body).1
    else truncate base; return some none

/-- What follows a round. -/
def nextRound (again : Exec (Option Signal)) : Option (Option Signal) → Exec (Option Signal)
  | none => again
  | some a => return a

/-- A loop is its first round and then the rest. -/
theorem rounds_loopRound_succ (test body : Segment) (index base n : Nat) :
    rounds (loopRound run test body index base) (n + 1) = loopRound run test body index base >>=
      nextRound (rounds (loopRound run test body index base) n) := by
  show (_ >>= _) = _
  congr 1
  funext a
  cases a <;> rfl

theorem endRound_bind (base : Nat) (again : Exec (Option Signal)) (signal : Option Signal) :
    endRound base signal >>= nextRound again = (match signal with
      | some .breakOut => do truncate base; return none
      | none | some (.next none) => do truncate base; again
      | some other => return some other) := by
  rcases signal with _ | _ | _ | ⟨_ | _⟩ | _ <;> rfl

/-- **The loop of the machine is a loop of rounds**, so that what is known of those applies. -/
theorem loop_eq_rounds (test body : Segment) (index base n : Nat) :
    loop run test body index base n = rounds (loopRound run test body index base) n := by
  induction n with
  | zero => rfl
  | succ n ih =>
    rw [rounds_loopRound_succ, loop, loopRound, bind_assoc, ih]
    congr 1
    funext e
    cases he : e.1 with
    | some signal =>
      rw [endRound_bind]
      rcases signal with _ | _ | ⟨_ | _⟩ | _ <;> rfl
    | none =>
      simp only [bind_assoc]
      congr 1
      funext v
      split
      · simp only [bind_assoc, endRound_bind]
        congr 1
      · rfl

theorem improves_loopRound (h : ∀ seg, Improves (run seg) (run' seg)) (test body : Segment)
    (index base : Nat) : Improves (loopRound run test body index base)
      (loopRound run' test body index base) := by
  refine (h test).bind fun e => ?_
  split
  · exact improves_refl _
  · refine (improves_refl _).bind fun v => ?_
    split
    · exact (h body).bind fun _ => improves_refl _
    · exact improves_refl _

/-- A loop improves with the fuel of its rounds and with their number. -/
theorem improves_loop (h : ∀ seg, Improves (run seg) (run' seg)) (hn : n ≤ n')
    (test body : Segment) (index base : Nat) :
    Improves (loop run test body index base n) (loop run' test body index base n') := by
  rw [loop_eq_rounds, loop_eq_rounds]
  exact improves_rounds (improves_loopRound h test body index base) hn

/-! ## Steps and segments -/

/-- The operations of the machine use no fuel. -/
theorem congruence_improves : Congruence .any (Paired fun _ => Improves) where
  pure _ := improves_refl _
  bind := Improves.bind
  fail _ _ := improves_refl _
  read hf := (improves_refl _).bind fun s => hf (fun _ => s) s.shared (fun _ => rfl) (Terms.holds_any _)
  update _ _ := improves_refl _
  push _ := improves_refl _
  pop _ := improves_refl _
  peek _ := improves_refl _
  popN _ _ := improves_refl _
  frame _ hf := (improves_refl _).bind fun f => hf f trivial
  write _ := improves_refl _

/-- Only the code run inside an instruction, and the rounds of a loop, use fuel. -/
theorem upholds_improves (h : ∀ seg, Improves (run seg) (run' seg)) (hn : n ≤ n') :
    Upholds .any (Paired fun _ => Improves) (fun _ => leaveCall) (fun _ => cx)
      (fun second => cond second run' run) (fun second => cond second n' n) where
  toCongruence := congruence_improves
  runs _ := h _
  lookup _ _ _ _ := improves_refl _
  call _ _ _ _ := improves_call h _ _ _ _ _
  whileTrue _ _ _ := (improves_refl _).bind fun _ => improves_loop h hn _ _ _ _

theorem improves_step (h : ∀ seg, Improves (run seg) (run' seg)) (hn : n ≤ n') (i : Instruction)
    (after : Segment) : Improves (step cx run n i after) (step cx run' n' i after) :=
  (upholds_improves h hn).step_any i after

/-- **More fuel does not change what a segment comes to.** -/
theorem improves_exec (cx : Setup) (n : Nat) (seg : Segment) :
    Improves (exec cx n seg) (exec cx (n + 1) seg) := by
  induction n generalizing seg with
  | zero => exact improves_outOfFuel _
  | succ n ih =>
    obtain ⟨index, _ | ⟨i, rest⟩⟩ := seg
    · exact improves_refl _
    · refine (improves_refl _).bind fun _ => ?_
      refine (improves_step ih (Nat.le_succ n) i _).bind fun r => ?_
      split
      · exact ih _
      · exact improves_refl _

theorem steady_exec (cx : Setup) (seg : Segment) : Steady fun n => exec cx n seg :=
  fun n => improves_exec cx n seg

theorem steady_step (cx : Setup) (i : Instruction) (after : Segment) :
    Steady fun n => step cx (exec cx n) n i after :=
  fun n => improves_step (improves_exec cx n) (Nat.le_succ n) i after

theorem steady_call (cx : Setup) (body : Segment) (scope : ScopeId) (parent : Option EnvId)
    (isBlock : Bool) (frame : EnvId → Nat → Frame) :
    Steady fun n => call cx (exec cx n) body scope parent isBlock frame :=
  fun n => improves_call (improves_exec cx n) _ _ _ _ _

/-! ## One instruction -/

/-- What a segment comes to. -/
noncomputable def den (cx : Setup) (seg : Segment) : Partial Stop State Ended :=
  lim fun n => exec cx n seg

/-- What an instruction comes to, with the code that follows it. -/
noncomputable def stepDen (cx : Setup) (i : Instruction) (after : Segment) :
    Partial Stop State (Option Signal × Segment) :=
  lim fun n => step cx (exec cx n) n i after

/-- What follows an instruction: the code after it, unless a signal ends the segment. -/
noncomputable def proceed (cx : Setup) : Option Signal × Segment → Partial Stop State Ended
  | (none, after) => den cx after
  | (some signal, after) => fun s => some (.ok (some signal, after.start) s)

theorem den_nil (start : Nat) (s : State) : den cx ⟨start, []⟩ s = some (.ok (none, start) s) :=
  lim_eq_some (n := 1) (steady_exec cx _) rfl (not_ranOut_ok _ s)

/-- The state when one more instruction has been counted. -/
def State.ticked (s : State) : State := { s with steps := s.steps + 1 }

variable {start : Nat} {i j k : Instruction} {inner rest tail code : List Instruction}

/-- **An instruction runs, and then the code after it.** -/
theorem den_cons (hcx : cx.Unlimited) (start : Nat) (i : Instruction) (rest : List Instruction)
    (s : State) : den cx ⟨start, i :: rest⟩ s =
      ((stepDen cx i ⟨start + 1, rest⟩).bind (proceed cx)) s.ticked := by
  let follow (r : Option Signal × Segment) (n : Nat) : Exec Ended :=
    match r with
    | (none, after) => exec cx n after
    | (some signal, after) => return (some signal, after.start)
  have hfollow : ∀ r, Steady (follow r) := by
    rintro ⟨_ | signal, after⟩
    · exact steady_exec cx after
    · exact steady_const _
  have hproceed : ∀ r, lim (follow r) = proceed cx r := by
    rintro ⟨_ | signal, after⟩
    · rfl
    · funext s
      exact lim_const rfl (not_ranOut_ok _ s)
  unfold stepDen
  rw [← funext hproceed, ← lim_bind (steady_step cx i _) hfollow]
  refine lim_eq_of_step (steady_exec cx _) ((steady_step cx i _).bind hfollow) fun n => ?_
  show EStateM.bind (tick cx) _ s = _
  simp only [EStateM.bind, tick_of_unlimited hcx]
  congr 1

/-- Code whose first instruction comes to `r` comes to what follows `r`. -/
theorem den_of_stepDen (hcx : cx.Unlimited) {s s' : State} {r : Option Signal × Segment}
    (h : stepDen cx i ⟨start + 1, rest⟩ s.ticked = some (.ok r s')) :
    den cx ⟨start, i :: rest⟩ s = proceed cx r s' := by
  rw [den_cons hcx, Partial.bind_of_eq_ok h]

theorem den_of_stepDen_error (hcx : cx.Unlimited) {s s' : State} {e : Stop}
    (h : stepDen cx i ⟨start + 1, rest⟩ s.ticked = some (.error e s')) :
    den cx ⟨start, i :: rest⟩ s = some (.error e s') := by
  rw [den_cons hcx, Partial.bind_of_eq_error h]

/-- An instruction that just does something. -/
theorem den_act (hcx : cx.Unlimited) {act : Nat → Exec Unit} (h : Performs cx i act) {s s' : State}
    (hact : act start s.ticked = .ok () s') :
    den cx ⟨start, i :: rest⟩ s = den cx ⟨start + 1, rest⟩ s' := by
  refine den_of_stepDen hcx (r := (none, ⟨start + 1, rest⟩)) ?_
  refine lim_eq_some (n := 0) (steady_step cx i _) ?_ (not_ranOut_ok _ s')
  rw [h]
  show EStateM.bind (act start) _ _ = _
  unfold EStateM.bind
  rw [hact]
  rfl

/-- An instruction that stops with an error. -/
theorem den_act_error (hcx : cx.Unlimited) {act : Nat → Exec Unit} (h : Performs cx i act)
    {s s' : State} {e : Fault} (hact : act start s.ticked = .error (.fault e) s') :
    den cx ⟨start, i :: rest⟩ s = some (.error (.fault e) s') := by
  refine den_of_stepDen_error hcx ?_
  refine lim_eq_some (n := 0) (steady_step cx i _) ?_ (mt ranOut_error_iff.mp (by nofun))
  rw [h]
  show EStateM.bind (act start) _ _ = _
  unfold EStateM.bind
  rw [hact]

/-! ## Code after code -/

/-- Code that is nested, by whatever rules. -/
def WellNested (code : List Instruction) : Prop := ∃ d p q, Nested d p code q

/-- What follows nested code. -/
noncomputable def thenDo (cx : Setup) (code : List Instruction) : Ended → Partial Stop State Ended
  | (signal, stop) => proceed cx (signal, ⟨stop, code⟩)

/-- An instruction with the blocks that belong to it: what it does is the same whatever follows. -/
def Group (i : Instruction) (inner : List Instruction) : Prop :=
  ∀ cx run n start tail, step cx run n i ⟨start, inner ++ tail⟩ =
    (fun r => (r.1, ⟨start + inner.length, tail⟩)) <$> step cx run n i ⟨start, inner⟩

/-- An instruction without a block is a group by itself. -/
theorem group_plain {e : Nat × Nat} (he : i.op.effect? = some e) : Group i [] := by
  intro cx run n start tail
  obtain ⟨op, scope⟩ := i
  cases op with
  | ifTrue | orElse | whileTrue | loopBody | defineMethod | defineBlock | endBlock => cases he
  | send message argc receiver withBlock =>
    cases receiver <;> simp [step, map_bind]
  | next withValue => cases withValue <;> simp [step]
  | yield argc =>
    simp only [step, map_bind]
    congr 1
    funext args
    congr 1
    funext f
    congr 1
    funext s
    split <;> simp [map_bind]
    rfl
  | _ => simp [step, map_bind]

theorem cut_bind {seg : Segment} {sought : Terminator} {label : Option BlockLabel}
    {parts : Segment × Segment} (hcut : seg.takeBlock sought label = .ok parts) {α : Type}
    (f : Segment × Segment → Exec α) : cut seg sought label >>= f = f parts := by
  funext s
  show EStateM.bind (cut seg sought label) f s = f parts s
  unfold EStateM.bind
  rw [cut_eq hcut]

/-- A conditional is a group with its two branches. -/
theorem group_cond {yes no : List Instruction} (hi : i.op = .ifTrue) (hj : j.op = .orElse)
    (hk : k.op = .endBlock .cond) (hy : WellNested yes) (hn : WellNested no) :
    Group i (yes ++ j :: (no ++ [k])) := by
  intro cx run n start tail
  obtain ⟨d, p, q, hy⟩ := hy
  obtain ⟨d', p', q', hn⟩ := hn
  simp only [step, hi, List.append_assoc, List.cons_append, List.nil_append, map_bind,
    cut_bind (hy.takeBlock_orElse hj start _), cut_bind (hn.takeBlock_ending hk _ _), map_pure]
  simp [Nat.add_assoc, Nat.add_comm, Nat.add_left_comm]

/-- A loop is a group with its test and its body. -/
theorem group_loop {test body : List Instruction} (hi : i.op = .whileTrue)
    (hj : j.op = .loopBody) (hk : k.op = .endBlock .loop) (ht : WellNested test)
    (hb : WellNested body) : Group i (test ++ j :: (body ++ [k])) := by
  intro cx run n start tail
  obtain ⟨d, p, q, ht⟩ := ht
  obtain ⟨d', p', q', hb⟩ := hb
  simp only [step, hi, List.append_assoc, List.cons_append, List.nil_append, map_bind,
    cut_bind (ht.takeBlock_loopBody hj start _), cut_bind (hb.takeBlock_ending hk _ _), map_pure]
  simp [Nat.add_assoc, Nat.add_comm, Nat.add_left_comm]

theorem group_method {name : String} {scope : ScopeId} {body : List Instruction}
    (hi : i.op = .defineMethod name scope) (hk : k.op = .endBlock .method)
    (hb : WellNested body) : Group i (body ++ [k]) := by
  intro cx run n start tail
  obtain ⟨d, p, q, hb⟩ := hb
  simp only [step, hi, List.append_assoc, List.cons_append, List.nil_append, map_bind,
    cut_bind (hb.takeBlock_ending hk _ _), map_pure]
  simp [Nat.add_assoc]

theorem group_block {scope : ScopeId} {body : List Instruction}
    (hi : i.op = .defineBlock scope) (hk : k.op = .endBlock .block) (hb : WellNested body) :
    Group i (body ++ [k]) := by
  intro cx run n start tail
  obtain ⟨d, p, q, hb⟩ := hb
  simp only [step, hi, List.append_assoc, List.cons_append, List.nil_append, map_bind,
    cut_bind (hb.takeBlock_ending hk _ _), map_pure]
  simp [Nat.add_assoc]

/-- What stands behind a group makes no difference to it. -/
theorem stepDen_group (hg : Group i inner) (cx : Setup) (start : Nat) (tail : List Instruction) :
    stepDen cx i ⟨start, inner ++ tail⟩ = (stepDen cx i ⟨start, inner⟩).bind fun r s =>
      some (.ok (r.1, ⟨start + inner.length, tail⟩) s) := by
  have hconst : ∀ r : Option Signal × Segment, (lim fun _ =>
      (pure (r.1, ⟨start + inner.length, tail⟩) : Exec (Option Signal × Segment))) =
        fun s => some (.ok (r.1, ⟨start + inner.length, tail⟩) s) :=
    fun r => funext fun s => lim_const rfl (not_ranOut_ok _ s)
  unfold stepDen
  rw [← funext hconst, ← lim_bind (steady_step cx i _) fun _ => steady_const _]
  congr 1
  funext n
  rw [hg, map_eq_pure_bind]

/-- A group runs first, and then the code behind it. -/
theorem den_group (hcx : cx.Unlimited) (hg : Group i inner) (start : Nat)
    (tail : List Instruction) : den cx ⟨start, i :: (inner ++ tail)⟩ =
      (den cx ⟨start, i :: inner⟩).bind (thenDo cx tail) := by
  funext s
  have hright : (den cx ⟨start, i :: inner⟩).bind (thenDo cx tail) s =
      (((stepDen cx i ⟨start + 1, inner⟩).bind (proceed cx)).bind (thenDo cx tail)) s.ticked := by
    unfold Partial.bind
    rw [den_cons hcx]
    rfl
  -- with nothing behind it, the instruction is followed by nothing
  have hinner := stepDen_group hg cx (start + 1) []
  rw [List.append_nil] at hinner
  rw [hright, den_cons hcx, stepDen_group hg, hinner, Partial.bind_assoc, Partial.bind_assoc,
    Partial.bind_assoc, Partial.bind_assoc]
  congr 1
  funext r s
  obtain ⟨_ | signal, after⟩ := r
  · show den cx _ s = (den cx ⟨_, []⟩).bind (thenDo cx tail) s
    rw [Partial.bind_of_eq_ok (den_nil _ s)]
    rfl
  · rfl

/-- **Nested code in front of other code runs first**, and a signal that it ends with is the end of
both. -/
theorem den_append (hcx : cx.Unlimited) (hc : WellNested code) (start : Nat)
    (tail : List Instruction) : den cx ⟨start, code ++ tail⟩ =
      (den cx ⟨start, code⟩).bind (thenDo cx tail) := by
  obtain ⟨d, p, q, hc⟩ := hc
  -- a group in front of code for which this holds already
  have hgroup : ∀ {i inner rest}, Group i inner → (∀ start, den cx ⟨start, rest ++ tail⟩ =
      (den cx ⟨start, rest⟩).bind (thenDo cx tail)) → ∀ start,
      den cx ⟨start, i :: (inner ++ rest) ++ tail⟩ =
        (den cx ⟨start, i :: (inner ++ rest)⟩).bind (thenDo cx tail) := by
    intro i inner rest hg ih start
    rw [List.cons_append, List.append_assoc, den_group hcx hg, den_group hcx hg,
      Partial.bind_assoc]
    congr 1
    funext e s
    obtain ⟨_ | signal, stop⟩ := e
    · exact congrFun (ih stop) s
    · rfl
  induction hc generalizing start with
  | nil p =>
    funext s
    rw [Partial.bind_of_eq_ok (den_nil start s)]
    rfl
  | plain _ he _ _ ih => exact hgroup (group_plain he) ih start
  | @cond _ _ _ _ i j k yes no rest _ hi hj hk _ hy hn _ _ _ _ ihr =>
    have := hgroup (group_cond hi hj hk ⟨_, _, _, hy⟩ ⟨_, _, _, hn⟩) ihr start
    simpa using this
  | @loop _ _ _ _ i j k test body rest _ hi hj hk ht _ hb _ _ _ _ ihr =>
    have := hgroup (group_loop hi hj hk ⟨_, _, _, ht⟩ ⟨_, _, _, hb⟩) ihr start
    simpa using this
  | @method _ _ _ i k _ _ body rest _ hi hk hb _ _ _ ihr =>
    have := hgroup (group_method hi hk ⟨_, _, _, hb⟩) ihr start
    simpa using this
  | @block _ _ _ i k _ body rest _ hi hk hb _ _ _ ihr =>
    have := hgroup (group_block hi hk ⟨_, _, _, hb⟩) ihr start
    simpa using this

/-! ## Signals, branches, loops and literals -/

variable {s : State} {v : Value} {below : List Value} {outer : List Frame} {f : Frame}

/-- An instruction that ends the segment. -/
theorem den_signal (hcx : cx.Unlimited) {signal : Signal} {s' : State}
    (h : step cx (exec cx 0) 0 i ⟨start + 1, rest⟩ s.ticked =
      .ok (some signal, ⟨start + 1, rest⟩) s') :
    den cx ⟨start, i :: rest⟩ s = some (.ok (some signal, start + 1) s') :=
  den_of_stepDen hcx (r := (some signal, ⟨start + 1, rest⟩))
    (lim_eq_some (n := 0) (steady_step cx i _) h (not_ranOut_ok _ s'))

theorem lim_pure {α β : Type} (f : α → β) :
    (fun a : α => lim fun _ => (pure (f a) : Exec β)) = fun a s => some (.ok (f a) s) :=
  funext fun _ => funext fun s => lim_const rfl (not_ranOut_ok _ s)

/-- A conditional runs one of its branches. -/
theorem den_cond (hcx : cx.Unlimited) {yes no : List Instruction} (hi : i.op = .ifTrue)
    (hj : j.op = .orElse) (hk : k.op = .endBlock .cond) (hy : WellNested yes)
    (hn : WellNested no) (hs : s.stack = v :: below) (hbase : s.base ≤ below.length) :
    den cx ⟨start, i :: (yes ++ j :: (no ++ k :: tail))⟩ s =
      ((den cx (if v.isTruthy then ⟨start + 1, yes⟩
        else ⟨start + 1 + yes.length + 1, no⟩)).bind fun e =>
          proceed cx (e.1, ⟨start + 1 + yes.length + 1 + no.length + 1, tail⟩))
        { s.ticked with stack := below } := by
  obtain ⟨d, p, q, hy⟩ := hy
  obtain ⟨d', p', q', hn⟩ := hn
  rw [den_cons hcx]
  have hstep : stepDen cx i ⟨start + 1, yes ++ j :: (no ++ k :: tail)⟩ s.ticked =
      ((den cx (if v.isTruthy then ⟨start + 1, yes⟩
        else ⟨start + 1 + yes.length + 1, no⟩)).bind fun e s =>
          some (.ok (e.1, ⟨start + 1 + yes.length + 1 + no.length + 1, tail⟩) s))
        { s.ticked with stack := below } := by
    unfold den stepDen
    rw [← lim_pure fun e : Ended => (e.1, _), ← lim_bind (steady_exec cx _) fun _ => steady_const _]
    refine lim_eq_of_eq fun n => ?_
    simp only [step, hi, cut_bind (hy.takeBlock_orElse hj (start + 1) _),
      cut_bind (hn.takeBlock_ending hk _ _)]
    show EStateM.bind (pop _) _ s.ticked = _
    unfold EStateM.bind
    rw [pop_of_stack (s := s.ticked) hs hbase]
  show Option.bind (stepDen cx i _ s.ticked) _ = _
  rw [hstep]
  exact congrFun (Partial.bind_assoc _ _ (proceed cx)) _

/-- A loop is its rounds. -/
theorem den_loop (hcx : cx.Unlimited) {test body : List Instruction} (hi : i.op = .whileTrue)
    (hj : j.op = .loopBody) (hk : k.op = .endBlock .loop) (ht : WellNested test)
    (hb : WellNested body) (start : Nat) (s : State) :
    den cx ⟨start, i :: (test ++ j :: (body ++ k :: tail))⟩ s =
      ((lim fun n => rounds (loopRound (exec cx n) ⟨start + 1, test⟩
        ⟨start + 1 + test.length + 1, body⟩ start s.stack.length) n).bind fun signal =>
          proceed cx (signal, ⟨start + 1 + test.length + 1 + body.length + 1, tail⟩)) s.ticked := by
  obtain ⟨d, p, q, ht⟩ := ht
  obtain ⟨d', p', q', hb⟩ := hb
  have hsteady : Steady fun n => loopRound (exec cx n) ⟨start + 1, test⟩
      ⟨start + 1 + test.length + 1, body⟩ start s.stack.length :=
    fun n => improves_loopRound (improves_exec cx n) _ _ _ _
  rw [den_cons hcx]
  have hstep : stepDen cx i ⟨start + 1, test ++ j :: (body ++ k :: tail)⟩ s.ticked =
      ((lim fun n => rounds (loopRound (exec cx n) ⟨start + 1, test⟩
        ⟨start + 1 + test.length + 1, body⟩ start s.stack.length) n).bind fun signal s =>
          some (.ok (signal, ⟨start + 1 + test.length + 1 + body.length + 1, tail⟩) s))
        s.ticked := by
    unfold stepDen
    rw [← lim_pure fun signal : Option Signal => (signal, _),
      ← lim_bind hsteady.rounds fun _ => steady_const _]
    refine lim_eq_of_eq fun n => ?_
    simp only [step, hi, cut_bind (ht.takeBlock_loopBody hj (start + 1) _),
      cut_bind (hb.takeBlock_ending hk _ _), loop_eq_rounds]
    rfl
  show Option.bind (stepDen cx i _ s.ticked) _ = _
  rw [hstep]
  exact congrFun (Partial.bind_assoc _ _ (proceed cx)) _

/-- A method definition keeps the body and pushes the name. -/
theorem den_method (hcx : cx.Unlimited) {name : String} {scope : ScopeId}
    {body : List Instruction} (hi : i.op = .defineMethod name scope)
    (hk : k.op = .endBlock .method) (hb : WellNested body) :
    den cx ⟨start, i :: (body ++ k :: tail)⟩ s =
      den cx ⟨start + 1 + body.length + 1, tail⟩ { s.ticked with
        methods := s.methods.insert name
          { name, body := ⟨start + 1, body⟩, scope, selfOnly := s.visibility = .selfOnly },
        stack := .sym name :: s.stack } := by
  obtain ⟨d, p, q, hb⟩ := hb
  refine den_of_stepDen hcx (r := (none, _)) ?_
  refine lim_eq_some (n := 0) (steady_step cx i _) ?_ (not_ranOut_ok _ _)
  simp only [step, hi, cut_bind (hb.takeBlock_ending hk (start + 1) tail)]
  rfl

/-- The block that a call captures. -/
def Frame.capture (f : Frame) (body : Segment) (scope : ScopeId) : Closure :=
  { body, scope, env := f.env, self := f.self, block := f.block, home := f.name }

/-- A block literal captures the current call and pushes the block. -/
theorem den_block (hcx : cx.Unlimited) {scope : ScopeId} {body : List Instruction}
    (hi : i.op = .defineBlock scope) (hk : k.op = .endBlock .block) (hb : WellNested body)
    (hframes : s.frames = f :: outer) :
    den cx ⟨start, i :: (body ++ k :: tail)⟩ s =
      den cx ⟨start + 1 + body.length + 1, tail⟩ { s.ticked with
        procs := s.procs.push (f.capture ⟨start + 1, body⟩ scope)
        stack := .proc s.procs.size :: s.stack } := by
  obtain ⟨d, p, q, hb⟩ := hb
  refine den_of_stepDen hcx (r := (none, _)) ?_
  refine lim_eq_some (n := 0) (steady_step cx i _) ?_ (not_ranOut_ok _ _)
  simp only [step, hi, cut_bind (hb.takeBlock_ending hk (start + 1) tail)]
  show EStateM.bind (frame _) _ s.ticked = _
  unfold EStateM.bind
  rw [frame_of_frames (s := s.ticked) hframes]
  rfl

/-! ## Calls -/

theorem not_ranOut_complete (isBlock : Bool) (e : Ended) (s : State) :
    ¬ RanOut (complete isBlock e s) := by
  have hmalformed : ∀ index cause, ¬ RanOut (malformed index cause s : EStateM.Result _ _ Completion) :=
    fun _ _ => mt ranOut_error_iff.mp (by nofun)
  obtain ⟨_ | _ | _ | ⟨_ | _⟩ | _, stop⟩ := e
  · show ¬ RanOut (EStateM.bind (pop (stop - 1)) _ s)
    unfold EStateM.bind pop
    cases s.stack with
    | nil => exact mt ranOut_error_iff.mp (by nofun)
    | cons v rest =>
      dsimp only
      split
      · rename_i heq
        exact not_ranOut_ok _ _
      · rename_i e' s' heq
        split at heq
        · cases heq
        · cases heq
          exact mt ranOut_error_iff.mp (by nofun)
  · exact hmalformed _ _
  · exact not_ranOut_ok _ _
  · exact hmalformed _ _
  · cases isBlock
    · exact hmalformed _ _
    · exact not_ranOut_ok _ _
  · cases isBlock
    · exact not_ranOut_ok _ _
    · exact hmalformed _ _

/-- What a body comes to as a call that has been entered. -/
noncomputable def callDen (cx : Setup) (body : Segment) (isBlock : Bool) :
    Partial Stop State Completion := fun s =>
  ((den cx body).bind (fun e s => some (complete isBlock e s)) s).map leaveCall

/-- The state inside a new call. -/
def State.entered (s : State) (env : Env) (frame : EnvId → Nat → Frame) : State :=
  { s with envs := s.envs.push env, frames := frame s.envs.next s.stack.length :: s.frames }

variable {body : Segment} {scope : ScopeId} {parent : Option EnvId} {isBlock : Bool}
  {frame : EnvId → Nat → Frame}

/-- A call runs its body in an environment of its own. -/
theorem lim_call {owned : Scope} (hdepth : s.callDepth < cx.limits.callDepth)
    (hget : cx.scopes.get? scope = some owned) :
    lim (fun n => call cx (exec cx n) body scope parent isBlock frame) s =
      callDen cx body isBlock (s.entered (freshEnv owned scope parent) frame) := by
  have hcomplete : (fun e : Ended => lim fun _ => complete isBlock e) =
      fun e s => some (complete isBlock e s) :=
    funext fun e => funext fun s => lim_const rfl (not_ranOut_complete isBlock e s)
  have hsteady : Steady fun n => exec cx n body >>= complete isBlock :=
    (steady_exec cx body).bind fun _ => steady_const _
  unfold callDen den
  rw [← hcomplete, ← lim_bind (steady_exec cx body) fun _ => steady_const _,
    ← lim_mapResult hsteady fun _ => ranOut_leaveCall_iff]
  refine lim_eq_of_eq fun n => ?_
  show (if cx.limits.callDepth ≤ s.callDepth then _ else _ : Exec Completion) s = _
  rw [if_neg (Nat.not_le.mpr hdepth)]
  show EStateM.bind (newEnv cx scope parent) _ s = _
  unfold EStateM.bind
  rw [newEnv_eq rfl hget]
  rfl

/-- A call beyond the limit is refused. -/
theorem lim_call_tooDeep (hdepth : cx.limits.callDepth ≤ s.callDepth) :
    lim (fun n => call cx (exec cx n) body scope parent isBlock frame) s =
      some (.error (.fault (.raised ⟨.stackTooDeep, []⟩)) s) := by
  refine lim_eq_some (n := 0) (steady_call cx _ _ _ _ _) ?_ (mt ranOut_error_iff.mp (by nofun))
  show (if cx.limits.callDepth ≤ s.callDepth then _ else _ : Exec Completion) s = _
  rw [if_pos hdepth]
  rfl

/-! ## Messages -/

/-- What follows a call: its value goes on the stack, a halt goes on outwards. -/
noncomputable def delivered (cx : Setup) (after : Segment) : Completion → Partial Stop State Ended
  | .value v => fun s => den cx after { s with stack := v :: s.stack }
  | .halt => fun s => some (.ok (some .halt, after.start) s)

/-- The end of an instruction that makes a call. -/
theorem lim_deliver {m : Nat → Exec Completion} (hm : Steady m) (after : Segment) :
    (lim fun n => do let c ← m n; return (← deliver c, after)).bind (proceed cx) =
      (lim m).bind (delivered cx after) := by
  have hend : (fun c => lim fun _ => do return (← deliver c, after)) =
      fun (c : Completion) s => some (match c with
        | .value v => .ok (none, after) { s with stack := v :: s.stack }
        | .halt => .ok (some .halt, after) s) := by
    funext c s
    cases c with
    | value v => exact lim_const rfl (not_ranOut_ok _ _)
    | halt => exact lim_const rfl (not_ranOut_ok _ _)
  rw [lim_bind hm fun _ => steady_const _, hend, Partial.bind_assoc]
  congr 1
  funext c s
  cases c <;> rfl

/-- A message only gains from more fuel. -/
theorem steady_dispatch (cx : Setup) (receiver : Option Value) (message : String)
    (args : List Value) (block : Option ProcId) (index : Nat) (target : Value) :
    Steady fun n => dispatch cx (exec cx n) receiver message args block index target := by
  intro n
  have hcode : Terms.any.code ⟨index, [⟨.send message 0 true false, ⟨0⟩⟩]⟩ := trivial
  exact (upholds_improves (improves_exec cx n) n.le_succ).dispatch hcode rfl receiver args block
    target

theorem bind_of_eq_ok {α β : Type} {m : Exec α} {g : α → Exec β} {a : α} {s' : State}
    (h : m s = .ok a s') : (m >>= g) s = g a s' := by
  show EStateM.bind m g s = _
  unfold EStateM.bind
  rw [h]

theorem get_bind {α : Type} (g : State → Exec α) (s : State) : (get >>= g) s = g s s :=
  rfl

/-- The block that goes with a message is popped, if there is one. -/
theorem popBlock_of_stack {block : Option ProcId} (hs : s.stack = (block.map Value.proc).toList
    ++ below) (hbase : s.base ≤ below.length) (index : Nat) :
    popBlock block.isSome index s = .ok block { s with stack := below } := by
  cases block with
  | none =>
    obtain rfl : s.stack = below := hs
    rfl
  | some id =>
    show (pop index >>= _) s = _
    rw [bind_of_eq_ok (pop_of_stack hs hbase index)]
    rfl

theorem somePop_of_stack (hs : s.stack = v :: below) (hbase : s.base ≤ below.length)
    (index : Nat) : (some <$> pop index) s = .ok (some v) { s with stack := below } := by
  show EStateM.map _ _ _ = _
  unfold EStateM.map
  rw [pop_of_stack hs hbase]

/-- **A message takes its operands and is dispatched.** -/
theorem den_send (hcx : cx.Unlimited) {message : String} {argc : UInt64} {receiver : Option Value}
    {block : Option ProcId} {args : List Value} (hargs : args.length = argc.toNat)
    (hs : s.stack = (block.map Value.proc).toList ++ (args.reverse ++ (receiver.toList ++ below)))
    (hbase : s.base ≤ below.length) (hframes : s.frames = f :: outer) :
    den cx ⟨start, ⟨.send message argc receiver.isSome block.isSome, scope⟩ :: tail⟩ s =
      ((lim fun n => dispatch cx (exec cx n) receiver message args block start
        (receiver.getD f.self)).bind (delivered cx ⟨start + 1, tail⟩))
        { s.ticked with stack := below } := by
  have hle : below.length ≤ (receiver.toList ++ below).length := by simp
  have hle' : below.length ≤ (args.reverse ++ (receiver.toList ++ below)).length := by
    simp only [List.length_append]
    omega
  rw [den_cons hcx, ← lim_deliver (steady_dispatch cx _ _ _ _ _ _)]
  refine congrArg (fun r => Option.bind r _) (lim_eq_of_eq fun n => ?_)
  simp only [step]
  rw [bind_of_eq_ok (popBlock_of_stack (s := s.ticked) hs (Nat.le_trans hbase hle') _),
    bind_of_eq_ok (popN_of_stack (s := { s.ticked with
      stack := args.reverse ++ (receiver.toList ++ below) }) rfl (Nat.le_trans hbase hle) hargs _)]
  cases receiver with
  | none =>
    show (send cx _ none message args block start >>= _) { s.ticked with stack := below } = _
    rw [send_eq, bind_assoc, bind_of_eq_ok (frame_of_frames (s := { s.ticked with stack := below }) hframes _)]
    rfl
  | some v =>
    have hpop := somePop_of_stack (s := { s.ticked with stack := v :: below }) rfl hbase start
    show ((some <$> pop start) >>= _) { s.ticked with stack := v :: below } = _
    rw [bind_of_eq_ok hpop, send_eq]
    rfl

/-- A yield calls the block of the current call. -/
theorem den_yield (hcx : cx.Unlimited) {argc : UInt64} {args : List Value} {c : Closure}
    (hargs : args.length = argc.toNat) (hs : s.stack = args.reverse ++ below)
    (hbase : s.base ≤ below.length) (hframes : s.frames = f :: outer)
    (hblock : f.block.bind (s.procs[·]?) = some c) :
    den cx ⟨start, ⟨.yield argc, scope⟩ :: tail⟩ s =
      ((lim fun n => callBlock cx (exec cx n) c args start).bind
        (delivered cx ⟨start + 1, tail⟩)) { s.ticked with stack := below } := by
  have hsteady : Steady fun n => callBlock cx (exec cx n) c args start := steady_call cx _ _ _ _ _
  rw [den_cons hcx, ← lim_deliver hsteady]
  refine congrArg (fun r => Option.bind r _) (lim_eq_of_eq fun n => ?_)
  simp only [step]
  rw [bind_of_eq_ok (popN_of_stack (s := s.ticked) hs hbase hargs _),
    bind_of_eq_ok (frame_of_frames (s := { s.ticked with stack := below }) hframes _)]
  have hfound : f.block.bind ({ s.ticked with stack := below }.procs[·]?) = some c := hblock
  rw [get_bind, hfound]
  rfl

/-- A yield in a call without a block raises. -/
theorem den_yield_noBlock (hcx : cx.Unlimited) {argc : UInt64} {args : List Value}
    (hargs : args.length = argc.toNat) (hs : s.stack = args.reverse ++ below)
    (hbase : s.base ≤ below.length) (hframes : s.frames = f :: outer) (hblock : f.block = none) :
    den cx ⟨start, ⟨.yield argc, scope⟩ :: tail⟩ s =
      some (.error (.fault (.raised ⟨.noBlock, []⟩)) { s.ticked with stack := below }) := by
  refine den_of_stepDen_error hcx ?_
  refine lim_eq_some (n := 0) (steady_step cx _ _) ?_ (mt ranOut_error_iff.mp (by nofun))
  simp only [step]
  rw [bind_of_eq_ok (popN_of_stack (s := s.ticked) hs hbase hargs _),
    bind_of_eq_ok (frame_of_frames (s := { s.ticked with stack := below }) hframes _)]
  rw [get_bind, hblock]
  rfl

end StackCode.Machine
