import StackCode.Proofs.Guards

/-!
# Runs with a limit on their instructions

A run that may only use so many instructions ends. Each instruction uses up one, and with it goes
all the code that the instruction runs; only a round of a loop need not use up any, when test and
body are both empty, and then it takes an operand off the stack. So a loop comes to its end because
the instructions that are left, and the height of the stack as long as they stay the same, grow
smaller from round to round (`reaches_loop`).

Main result: **`step_limit_ends`**. It also says how many instructions get past the check of the
limits; `passesWithin` counts those and only those.
-/

namespace StackCode.Machine

variable {α β : Type} {s : State}

/-! ## Operations -/

/-- The state in which a computation ends. -/
def endState : EStateM.Result Stop State α → State
  | .ok _ t | .error _ t => t

/-- The computation comes to an end without an instruction. -/
def Brief (m : Exec α) : Prop := ∀ s, ¬ RanOut (m s) ∧ (endState (m s)).steps = s.steps

theorem brief_fail (f : Fault) : Brief (fail f : Exec α) :=
  fun _ => ⟨mt ranOut_error_iff.mp (by nofun), rfl⟩

/-- Operations on the stack use no fuel and count no instruction. -/
theorem OnStack.brief {m : Exec α} (h : OnStack m) : Brief m := by
  intro s
  rcases h s with ⟨a, stack, heq⟩ | ⟨f, heq, -⟩
  · rw [heq]
    exact ⟨not_ranOut_ok _ _, rfl⟩
  · rw [heq]
    exact brief_fail f s

theorem brief_write (text : String) : Brief (write text) := by
  intro s
  rw [write_eq]
  split
  · exact ⟨not_ranOut_ok _ _, rfl⟩
  · exact ⟨mt ranOut_error_iff.mp (by nofun), rfl⟩

/-! ## Ends that are reached -/

/-- With fuel enough the computation ends, and `Q` holds of its result. -/
def Reaches (f : Nat → Exec α) (Q : EStateM.Result Stop State α → Prop) (s : State) : Prop :=
  ∃ r, lim f s = some r ∧ Q r

section

variable {f : Nat → Exec α} {g : α → Nat → Exec β} {Q Q' : EStateM.Result Stop State α → Prop}
  {P : EStateM.Result Stop State β → Prop}

theorem Reaches.mono (h : Reaches f Q s) (hq : ∀ r, Q r → Q' r) : Reaches f Q' s := by
  obtain ⟨r, hr, hQ⟩ := h
  exact ⟨r, hr, hq r hQ⟩

/-- One computation after another comes to its end when both do. -/
theorem Reaches.bind (hf : Steady f) (hg : ∀ a, Steady (g a)) (h : Reaches f Q s)
    (hok : ∀ a t, Q (.ok a t) → Reaches (g a) P t)
    (herror : ∀ e t, Q (.error e t) → P (.error e t)) :
    Reaches (fun n => f n >>= fun a => g a n) P s := by
  obtain ⟨r, hr, hQ⟩ := h
  cases r with
  | ok a t =>
    obtain ⟨q, hq, hP⟩ := hok a t hQ
    refine ⟨q, ?_, hP⟩
    rw [lim_bind hf hg, Partial.bind_of_eq_ok hr]
    exact hq
  | error e t =>
    refine ⟨.error e t, ?_, herror e t hQ⟩
    rw [lim_bind hf hg, Partial.bind_of_eq_error hr]

/-- A computation without fuel has its end already. -/
theorem reaches_of_not_ranOut {m : Exec α} (h : ¬ RanOut (m s)) (hq : Q (m s)) :
    Reaches (fun _ => m) Q s :=
  ⟨m s, lim_const rfl h, hq⟩

/-- A loop whose rounds end comes to its end, when something grows smaller from round to round. -/
theorem reaches_rounds {r : Nat → Exec (Option α)} (hr : Steady r) {I : State → Prop}
    {small : State → State → Prop} (hwf : WellFounded small)
    (h : ∀ s, I s → Reaches r (fun q => match afterRound q with
      | .inl t => I t ∧ small t s
      | .inr x => Q x) s) (hs : I s) : Reaches (fun n => rounds (r n) n) Q s := by
  induction s using hwf.induction with
  | _ s ih =>
    obtain ⟨q, hq, hafter⟩ := h s hs
    unfold Reaches
    rw [lim_rounds hr hq]
    split at hafter
    · rename_i t ht
      rw [ht]
      exact ih t hafter.2 hafter.1
    · rename_i x hx
      rw [hx]
      exact ⟨x, rfl, hafter⟩

end

/-! ## Instructions that are left -/

/-- How many more instructions may be counted: those within the limit, and the one that is not. -/
def State.left (s : State) (max : Nat) : Nat := max + 1 - s.steps

/-- The computations come to an end from every state with at most `k` instructions left. -/
def EndsWithin (max k : Nat) (α : Type) (f : Nat → Exec α) : Prop :=
  Steady f ∧ ∀ s : State, s.left max ≤ k → Reaches f (fun r => s.steps ≤ (endState r).steps) s

variable {max k : Nat}

theorem left_le {s t : State} (h : s.steps ≤ t.steps) (hs : s.left max ≤ k) : t.left max ≤ k := by
  unfold State.left at *
  omega

/-- What is brief ends, however few instructions are left. -/
theorem Brief.endsWithin {m : Exec α} (h : Brief m) : EndsWithin max k α fun _ => m := by
  refine ⟨steady_const m, fun s _ => ?_⟩
  obtain ⟨hend, hsteps⟩ := h s
  exact reaches_of_not_ranOut hend (Nat.le_of_eq hsteps.symm)

/-- The second of two computations has no more instructions left than the first. -/
theorem endsWithin_bind {f : Nat → Exec α} {g : Nat → α → Exec β} (hf : EndsWithin max k α f)
    (hg : ∀ a, EndsWithin max k β fun n => g n a) : EndsWithin max k β fun n => f n >>= g n := by
  refine ⟨hf.1.bind fun a => (hg a).1, fun s hs => ?_⟩
  refine (hf.2 s hs).bind hf.1 (fun a => (hg a).1) (fun a t ht => ?_) fun e t ht => ht
  exact ((hg a).2 t (left_le ht hs)).mono fun r hr => Nat.le_trans ht hr

theorem congruence_endsWithin : Congruence .any (EndsWithin max k) where
  pure a := (onStack_pure a).brief.endsWithin
  bind := endsWithin_bind
  fail f _ := (brief_fail f).endsWithin
  read hf := by
    have hconst := fun s : State => hf (fun _ => s) s.shared (fun _ => rfl) (Terms.holds_any _)
    refine ⟨fun n => (improves_refl _).bind fun s => (hconst s).1 n, fun s hs => ?_⟩
    obtain ⟨r, hr, hle⟩ := (hconst s).2 s hs
    exact ⟨r, (lim_eq_of_eq fun _ => rfl).trans hr, hle⟩
  update g _ := Brief.endsWithin fun _ => ⟨not_ranOut_ok _ _, rfl⟩
  push v := (onStack_push v).brief.endsWithin
  pop index := (onStack_pop index).brief.endsWithin
  peek index := (onStack_peek index).brief.endsWithin
  popN n index := (onStack_popN n index).brief.endsWithin
  frame index hf := endsWithin_bind (onStack_frame index).brief.endsWithin fun f => hf f trivial
  write text := (brief_write text).endsWithin

/-! ## Calls and loops -/

variable {cx : Setup}

theorem steps_leaveCall (r : EStateM.Result Stop State Completion) :
    (endState (leaveCall r)).steps = (endState r).steps := by
  have leave : ∀ t : State, t.leaveCall.steps = t.steps := by
    intro t
    unfold State.leaveCall
    split <;> rfl
  cases r <;> exact leave _

/-- A call ends within the instructions that its body ends in. -/
theorem endsWithin_call {run : Nat → Segment → Exec Ended}
    (hrun : ∀ seg, EndsWithin max k Ended fun n => run n seg) (body : Segment) (scope : ScopeId)
    (parent : Option EnvId) (isBlock : Bool) (frame : EnvId → Nat → Frame) :
    EndsWithin max k Completion fun n => call cx (run n) body scope parent isBlock frame := by
  have hsteady : Steady fun n => call cx (run n) body scope parent isBlock frame :=
    fun n => improves_call (fun seg => (hrun seg).1 n) _ _ _ _ _
  refine ⟨hsteady, fun s hs => ?_⟩
  have hbody := endsWithin_bind (hrun body) (congruence_endsWithin.complete isBlock)
  have refused : ∀ f : Fault, (∀ n, call cx (run n) body scope parent isBlock frame s = fail f s) →
      Reaches (fun n => call cx (run n) body scope parent isBlock frame)
        (fun r => s.steps ≤ (endState r).steps) s := fun f hf =>
    ⟨_, lim_eq_some hsteady (hf 0) (brief_fail f s).1, Nat.le_refl _⟩
  by_cases hdepth : cx.limits.callDepth ≤ s.callDepth
  · exact refused _ fun n => (call_eq ..).trans (if_pos hdepth)
  cases henv : Env.ofScope? cx.scopes scope parent with
  | none =>
    refine refused (.missingScope scope) fun n => ?_
    rw [call_eq, if_neg hdepth, henv]
  | some env =>
    let entered : State := { s with envs := s.envs.push env
                                    frames := frame s.envs.next s.stack.length :: s.frames }
    obtain ⟨r, hr, hle⟩ := hbody.2 entered hs
    refine ⟨leaveCall r, ?_, Nat.le_trans hle (Nat.le_of_eq (steps_leaveCall r).symm)⟩
    have heq : lim (fun n => call cx (run n) body scope parent isBlock frame) s =
        lim (fun n s => leaveCall ((run n body >>= complete isBlock) s)) entered := by
      refine lim_eq_of_eq fun n => ?_
      rw [call_eq, if_neg hdepth, henv]
    rw [heq, lim_mapResult hbody.1 fun _ => ranOut_leaveCall_iff, hr]
    rfl

/-- What the run of a segment does to the instructions that are left: it uses some, unless there is
no code. -/
def Progress (max : Nat) (seg : Segment) (s : State) : EStateM.Result Stop State Ended → Prop
  | .ok e t => (seg.code = [] ∧ e.1 = none ∧ t = s) ∨ (s.steps < t.steps ∧ s.steps < max)
  | .error _ t => s.steps ≤ t.steps

/-- Instructions are never given back. -/
theorem Progress.le {seg : Segment} {r : EStateM.Result Stop State Ended}
    (h : Progress max seg s r) : s.steps ≤ (endState r).steps := by
  cases r with
  | ok e t =>
    rcases h with ⟨-, -, rfl⟩ | ⟨h, -⟩
    · exact Nat.le_refl _
    · exact Nat.le_of_lt h
  | error e t => exact h

/-- An instruction has been used or, if none has, there are no more operands than before. -/
def NoLarger (max : Nat) (t s : State) : Prop :=
  s.steps < t.steps ∧ s.steps < max ∨ t.steps = s.steps ∧ t.stack.length ≤ s.stack.length

/-- An instruction has been used or, if none has, an operand. -/
def Smaller (max : Nat) (t s : State) : Prop :=
  s.steps < t.steps ∧ s.steps < max ∨ t.steps = s.steps ∧ t.stack.length < s.stack.length

section

variable {t u : State}

/-- One strict decrease is enough, if nothing grows after it. -/
theorem Smaller.trans_noLarger (h : Smaller max t s) (h' : NoLarger max u t) : Smaller max u s := by
  unfold Smaller NoLarger at *
  omega

/-- One strict decrease is enough, if nothing grew before it. -/
theorem NoLarger.trans_smaller (h : NoLarger max t s) (h' : Smaller max u t) : Smaller max u s := by
  unfold Smaller NoLarger at *
  omega

theorem Smaller.le (h : Smaller max t s) : s.steps ≤ t.steps := by
  unfold Smaller at h
  omega

theorem NoLarger.le (h : NoLarger max t s) : s.steps ≤ t.steps := by
  unfold NoLarger at h
  omega

/-- Running a segment grows nothing: the instructions left or the stack. -/
theorem Progress.noLarger {seg : Segment} {e : Ended} (h : Progress max seg s (.ok e t)) :
    NoLarger max t s := by
  rcases h with ⟨-, -, rfl⟩ | h
  · exact .inr ⟨rfl, Nat.le_refl _⟩
  · exact .inl h

/-- A signal comes from an instruction. -/
theorem Progress.smaller {seg : Segment} {e : Ended} (h : Progress max seg s (.ok e t))
    (he : e.1 ≠ none) : Smaller max t s := by
  rcases h with ⟨-, hnone, -⟩ | h
  · exact absurd hnone he
  · exact .inl h

end

/-- **There is no endless way down.** Ordered by the instructions left and then by the height. -/
theorem wellFounded_smaller (max : Nat) : WellFounded (Smaller max) := by
  let measure (s : State) : Nat × Nat := (s.left max, s.stack.length)
  have hlex : WellFounded (InvImage (Prod.Lex (· < ·) (· < ·)) measure) :=
    InvImage.wf measure (Prod.lex Nat.lt_wfRel Nat.lt_wfRel).wf
  refine Subrelation.wf (fun {t s} h => Prod.lex_def.mpr ?_) hlex
  show t.left max < s.left max ∨ t.left max = s.left max ∧ t.stack.length < s.stack.length
  unfold Smaller at h
  unfold State.left
  omega

/-- What a round of a loop comes to: an end, or a smaller state for the next round. -/
def Rounded (max : Nat) (s : State) (q : EStateM.Result Stop State (Option (Option Signal))) :
    Prop :=
  s.steps ≤ (endState q).steps ∧ ∀ t, q = .ok none t → Smaller max t s

/-- The end of a round takes operands away at most. -/
theorem endRound_eq_ok (base : Nat) (signal : Option Signal) (s : State) :
    ∃ x t, endRound base signal s = .ok x t ∧ NoLarger max t s := by
  have htruncate : NoLarger max (s.truncate base) s := by
    refine .inr ⟨rfl, ?_⟩
    show (s.stack.drop _).length ≤ _
    rw [List.length_drop]
    exact Nat.sub_le ..
  have same : NoLarger max s s := .inr ⟨rfl, Nat.le_refl _⟩
  rcases signal with _ | _ | _ | ⟨_ | v⟩ | v
  · exact ⟨_, _, rfl, htruncate⟩
  · exact ⟨_, _, rfl, htruncate⟩
  · exact ⟨_, _, rfl, same⟩
  · exact ⟨_, _, rfl, htruncate⟩
  · exact ⟨_, _, rfl, same⟩
  · exact ⟨_, _, rfl, same⟩

/-- After a test or a body that made progress, the round as a whole has. -/
theorem reaches_endRound {t : State} (base : Nat) (signal : Option Signal)
    (h : Smaller max t s) : Reaches (fun _ => endRound base signal) (Rounded max s) t := by
  obtain ⟨x, u, hu, hsmall⟩ := endRound_eq_ok base signal t
  have hus := h.trans_noLarger hsmall
  refine ⟨_, lim_const hu (not_ranOut_ok x u), hus.le, ?_⟩
  rintro _ ⟨⟩
  exact hus

/-- Taking an operand makes the state smaller, if there is one. -/
theorem reaches_pop (max index : Nat) (s : State) : Reaches (fun _ => pop index) (fun
    | .ok _ t => Smaller max t s
    | .error _ t => t.steps = s.steps) s := by
  rcases s.operand_cases with hlow | ⟨v, below, hs, hbase⟩
  · have hpop := pop_of_length_le hlow index
    exact ⟨_, lim_const hpop (brief_fail _ s).1, rfl⟩
  · have hpop := pop_of_stack hs hbase index
    refine ⟨_, lim_const hpop (not_ranOut_ok _ _), .inr ⟨rfl, ?_⟩⟩
    rw [hs]
    exact Nat.lt_succ_self _

section

variable (hexec : ∀ seg s, s.left max ≤ k →
    Reaches (fun n => exec cx n seg) (Progress max seg s) s)
  (test body : Segment) (index base : Nat)

include hexec

/-- A round that does not end the loop has used an instruction or an operand. -/
theorem reaches_loopRound (hs : s.left max ≤ k) :
    Reaches (fun n => loopRound (exec cx n) test body index base) (Rounded max s) s := by
  refine (hexec test s hs).bind (steady_exec cx test) (steady_afterTest body index base)
    (fun e t ht => ?_) fun e t ht => ⟨ht, by nofun⟩
  have hts := ht.noLarger
  split
  · rename_i signal hsignal
    exact reaches_endRound base _ (ht.smaller (by rw [hsignal]; nofun))
  -- The test has left its value, which is taken before the body runs.
  have hafter : ∀ v : Value, Steady fun n => (if v.isTruthy then do
        endRound base (← exec cx n body).1
      else do truncate base; return some none : Exec (Option (Option Signal))) := by
    intro v n
    dsimp only
    split
    · exact (improves_exec cx n body).bind fun _ => improves_refl _
    · exact improves_refl _
  refine (reaches_pop max index t).bind (steady_const _) hafter (fun v u hu => ?_) fun e u hu =>
    ⟨Nat.le_trans hts.le (Nat.le_of_eq hu.symm), by nofun⟩
  have hus := hts.trans_smaller hu
  split
  · refine (hexec body u (left_le hus.le hs)).bind (steady_exec cx body) (fun _ => steady_const _)
      (fun e w hw => reaches_endRound base _ (hus.trans_noLarger hw.noLarger)) fun e w hw =>
        ⟨Nat.le_trans hus.le hw, by nofun⟩
  · exact reaches_of_not_ranOut (not_ranOut_ok _ _) ⟨hus.le, by nofun⟩

/-- **A loop comes to its end**, for want of instructions or of operands if not before. -/
theorem reaches_loop (hs : s.left max ≤ k) :
    Reaches (fun n => loop (exec cx n) test body index base n)
      (fun r => s.steps ≤ (endState r).steps) s := by
  simp only [loop_eq_rounds]
  have hround := fun n => improves_loopRound (improves_exec cx n) test body index base
  refine reaches_rounds (I := fun t => s.steps ≤ t.steps) hround (wellFounded_smaller max)
    (fun t ht => ?_) (Nat.le_refl _)
  refine (reaches_loopRound hexec test body index base (left_le ht hs)).mono fun q hq => ?_
  obtain ⟨hle, hsmall⟩ := hq
  rcases q with ⟨_ | x, u⟩ | ⟨e, u⟩
  · exact ⟨Nat.le_trans ht hle, hsmall u rfl⟩
  · exact Nat.le_trans ht hle
  · exact Nat.le_trans ht hle

omit test body index base in
theorem endsWithin_exec (seg : Segment) : EndsWithin max k Ended fun n => exec cx n seg :=
  ⟨steady_exec cx seg, fun s hs => (hexec seg s hs).mono fun _ => Progress.le⟩

omit test body index base in
/-- Instructions end when the segments inside them do. -/
theorem upholds_endsWithin :
    Upholds .any (EndsWithin max k) (fun _ => leaveCall) (fun _ => cx) (fun n => exec cx n)
      fun n => n where
  toCongruence := congruence_endsWithin
  runs _ := endsWithin_exec hexec _
  lookup _ env _ _ := congruence_endsWithin.checkLookup (fun _ => rfl) (fun _ => rfl)
    (fun _ => (brief_fail _).endsWithin) env _
  call _ _ parent isBlock := endsWithin_call (endsWithin_exec hexec) _ _ parent isBlock _
  whileTrue {test body} _ _ index := by
    refine ⟨fun n => (improves_refl _).bind fun s =>
      improves_loop (improves_exec cx n) (Nat.le_succ n) _ _ _ _, fun s hs => ?_⟩
    obtain ⟨r, hr, hle⟩ := reaches_loop hexec test body index s.stack.length hs
    exact ⟨r, (lim_eq_of_eq fun _ => rfl).trans hr, hle⟩

end

/-! ## Segments -/

/-- An instruction that is let through finds the count below the limit. -/
theorem lt_max_of_exceeded? {limits : Limits} (hmax : limits.steps = some max) {steps height : Nat}
    (h : limits.exceeded? (steps + 1) height = none) : steps < max := by
  unfold Limits.exceeded? at h
  rw [hmax] at h
  by_cases hlt : steps < max
  · exact hlt
  · have hfilter : (some max).filter (· < steps + 1) = some max := by
      simpa [Option.filter_eq_some_iff] using Nat.lt_succ_of_le (Nat.not_lt.mp hlt)
    rw [hfilter] at h
    cases h

/-- What follows an instruction. -/
def follow (cx : Setup) (r : Option Signal × Segment) (n : Nat) : Exec Ended :=
  match r with
  | (none, after) => exec cx n after
  | (some signal, after) => return (some signal, after.start)

/-- What follows an instruction only gains from more fuel. -/
theorem steady_follow (cx : Setup) : ∀ r, Steady (follow cx r) := by
  rintro ⟨_ | signal, after⟩
  · exact steady_exec cx after
  · exact steady_const _

/-- **Code comes to its end** within a limit on its instructions. The induction is on the
instructions that are left. -/
theorem reaches_exec (hmax : cx.limits.steps = some max) (k : Nat) (seg : Segment) (s : State)
    (hs : s.left max ≤ k) : Reaches (fun n => exec cx n seg) (Progress max seg s) s := by
  induction k using Nat.strongRecOn generalizing seg s with
  | ind k ih =>
    obtain ⟨index, _ | ⟨i, rest⟩⟩ := seg
    · exact ⟨_, den_nil index s, .inl ⟨rfl, rfl, rfl⟩⟩
    have htick := tick_eq cx s
    cases hexceeded : cx.limits.exceeded? (s.steps + 1) s.stack.length with
    | some f =>
      rw [hexceeded] at htick
      have hexec : exec cx 1 ⟨index, i :: rest⟩ s = .error (.fault f) s.ticked := by
        show EStateM.bind (tick cx) _ s = _
        unfold EStateM.bind
        rw [htick]
        rfl
      exact ⟨_, lim_eq_some (steady_exec cx _) hexec (mt ranOut_error_iff.mp (by nofun)),
        Nat.le_succ _⟩
    | none =>
      rw [hexceeded] at htick
      have hlt : s.steps < max := lt_max_of_exceeded? hmax hexceeded
      have hleft : s.ticked.left max < k := by
        have hticked : s.ticked.left max = max - s.steps := Nat.add_sub_add_right ..
        unfold State.left at hs
        omega
      have hcode := ih _ hleft
      have hstep := (upholds_endsWithin hcode).step_any i ⟨index + 1, rest⟩
      have hlim : lim (fun n => exec cx n ⟨index, i :: rest⟩) s = lim (fun n =>
          step cx (exec cx n) n i ⟨index + 1, rest⟩ >>= fun r => follow cx r n) s.ticked := by
        refine lim_eq_of_step (steady_exec cx _) (hstep.1.bind (steady_follow cx)) fun n => ?_
        show (tick cx >>= _) s = _
        rw [bind_of_eq_ok htick]
        rfl
      have hreach : Reaches (fun n => step cx (exec cx n) n i ⟨index + 1, rest⟩ >>= fun r =>
          follow cx r n) (fun r => s.steps < (endState r).steps) s.ticked := by
        refine (hstep.2 s.ticked (Nat.le_refl _)).bind hstep.1 (steady_follow cx) ?_ fun e t ht => ht
        rintro ⟨_ | signal, after⟩ t ht
        · exact (hcode after t (left_le ht (Nat.le_refl _))).mono fun r hr =>
            Nat.lt_of_lt_of_le ht hr.le
        · exact reaches_of_not_ranOut (not_ranOut_ok _ _) ht
      obtain ⟨r, hr, hsteps⟩ := hreach
      refine ⟨r, hlim.trans hr, ?_⟩
      cases r with
      | ok e t => exact .inr ⟨hsteps, hlt⟩
      | error e t => exact Nat.le_of_lt hsteps

/-! ## Counting -/

/-- Counts an instruction once it has got past the limits. -/
def tickPast (cx : Setup) : Exec Unit := fun s =>
  match tick cx s with
  | .ok () t => .ok () t
  | .error e t => .error e { t with steps := s.steps }

/-- Instructions are counted once they have got past the limits. -/
def Hooks.counting (cx : Setup) : Hooks := ⟨fun _ => tickPast cx, leaveCall⟩

/-- The report of a run, and how many instructions have got past the limits. -/
def passesWithin (fuel : Nat) (limits : Limits) (room : Option Nat) (p : Program) : Report × Nat :=
  let r := runBy .counting fuel limits p { output := { room } }
  (report r, (endState r).steps)

/-- Results that differ in how many instructions were counted before an error, with at most `max`
in the second. -/
inductive Counted (max : Nat) : EStateM.Result Stop State α → EStateM.Result Stop State α → Prop
  | ok (a : α) {t : State} : t.steps ≤ max → Counted max (.ok a t) (.ok a t)
  | error (e : Stop) (t : State) {steps : Nat} : steps ≤ max →
    Counted max (.error e t) (.error e { t with steps })

/-- The second computation does the same as the first, and counts at most `max` instructions. -/
def Counts (max : Nat) (α : Type) (m m' : Exec α) : Prop :=
  ∀ s, s.steps ≤ max → Counted max (m s) (m' s)

theorem Brief.counts {m : Exec α} (h : Brief m) : Counts max α m m := by
  intro s hs
  have hsteps := (h s).2
  cases hm : m s with
  | ok a t =>
    rw [hm] at hsteps
    exact .ok a (Nat.le_trans (Nat.le_of_eq hsteps) hs)
  | error e t =>
    rw [hm] at hsteps
    exact .error e t (Nat.le_trans (Nat.le_of_eq hsteps) hs)

/-- Counts are kept apart from what the computations do. -/
theorem counts_bind {m m' : Exec α} {f f' : α → Exec β} (hm : Counts max α m m')
    (hf : ∀ a, Counts max β (f a) (f' a)) : Counts max β (m >>= f) (m' >>= f') := by
  intro s hs
  show Counted max (EStateM.bind m f s) (EStateM.bind m' f' s)
  have h := hm s hs
  unfold EStateM.bind
  generalize m s = r, m' s = r' at h
  cases h with
  | ok a ht => exact hf a _ ht
  | error e t ht => exact .error e t ht

theorem counts_outOfFuel : Counts max α (throw .outOfFuel) (throw .outOfFuel) :=
  fun s hs => .error _ s hs

/-- The operations of the machine count nothing. -/
theorem congruence_counts : Congruence .any (Paired (Counts max)) where
  pure a := (onStack_pure a).brief.counts
  bind := counts_bind
  fail f _ := (brief_fail f).counts
  read hf s hs := paired_of_shared hf rfl (Terms.holds_any _) s hs
  update _ _ := Brief.counts fun _ => ⟨not_ranOut_ok _ _, rfl⟩
  push v := (onStack_push v).brief.counts
  pop index := (onStack_pop index).brief.counts
  peek index := (onStack_peek index).brief.counts
  popN n index := (onStack_popN n index).brief.counts
  frame index hf := counts_bind (onStack_frame index).brief.counts fun f => hf f trivial
  write text := (brief_write text).counts

/-- The count goes up with an instruction that is let through, and with no other. -/
theorem counts_tick (hmax : cx.limits.steps = some max) :
    Counts max Unit (tick cx) (tickPast cx) := by
  intro s hs
  unfold tickPast
  rw [tick_eq]
  cases hexceeded : cx.limits.exceeded? (s.steps + 1) s.stack.length with
  | none => exact .ok () (lt_max_of_exceeded? hmax hexceeded)
  | some f => exact .error _ _ hs

/-- A call that is left takes no count back. -/
theorem Counted.leaveCall {r r' : EStateM.Result Stop State Completion} (h : Counted max r r') :
    Counted max (leaveCall r) (leaveCall r') := by
  have hleave : ∀ (t : State) (steps : Nat), State.leaveCall { t with steps } =
      { t.leaveCall with steps } := by
    intro t steps
    unfold State.leaveCall
    dsimp only
    split <;> rfl
  cases h with
  | @ok c t ht => exact .ok c (Nat.le_trans (Nat.le_of_eq (steps_leaveCall (.ok c t))) ht)
  | @error e t steps ht =>
    show Counted max (.error _ t.leaveCall) (.error _ (State.leaveCall { t with steps }))
    rw [hleave t steps]
    exact .error _ _ ht

theorem counts_call {run run' : Segment → Exec Ended}
    (hrun : ∀ seg, Counts max Ended (run seg) (run' seg)) (body : Segment) (scope : ScopeId)
    (parent : Option EnvId) (isBlock : Bool) (frame : EnvId → Nat → Frame) :
    Counts max Completion (call cx run body scope parent isBlock frame)
      (call cx run' body scope parent isBlock frame) := by
  have hbody := counts_bind (hrun body) (congruence_counts.complete isBlock)
  intro s hs
  rw [call_eq, call_eq]
  split
  · exact .error _ s hs
  split
  · exact .error _ s hs
  · rename_i env henv
    let entered : State := { s with envs := s.envs.push env
                                    frames := frame s.envs.next s.stack.length :: s.frames }
    exact (hbody entered hs).leaveCall

/-- Instructions count what the segments inside them count. -/
theorem upholds_counts {run : Bool → Segment → Exec Ended} (n : Nat)
    (hrun : ∀ seg, Counts max Ended (run false seg) (run true seg)) :
    Upholds .any (Paired (Counts max)) (fun _ => leaveCall) (fun _ => cx) run fun _ => n where
  toCongruence := congruence_counts
  runs _ := hrun _
  lookup _ env _ _ := congruence_counts.checkLookup (fun _ => rfl) (fun _ => rfl)
    (fun _ => (brief_fail _).counts) env _
  call _ _ parent isBlock := counts_call hrun _ _ parent isBlock _
  whileTrue {test body} _ _ index := by
    intro s hs
    exact congruence_counts.loop counts_outOfFuel (hrun test) (hrun body)
      (onStack_truncate _).brief.counts index n s hs

/-! ## Runs -/

theorem brief_finish (e : Ended) : Brief (finish e) := by
  obtain ⟨_ | _ | _ | ⟨_ | _⟩ | _, stop⟩ := e
  case none | some.ret | some.halt => exact fun s => ⟨not_ranOut_ok _ _, rfl⟩
  all_goals exact brief_fail _

theorem brief_topFrame (env : EnvId) :
    Brief (modify fun s : State => { s with frames := [topFrame env] }) :=
  fun _ => ⟨not_ranOut_ok _ _, rfl⟩

/-- A run with a limit ends, wherever its count stands. -/
theorem endsWithin_runWithin {limits : Limits} (hmax : limits.steps = some max) (p : Program) :
    EndsWithin max k Exit fun n => runWithin n limits p := by
  refine endsWithin_bind (congruence_endsWithin.newEnv fun _ => (brief_fail _).endsWithin)
    fun env => ?_
  refine endsWithin_bind (brief_topFrame env).endsWithin fun _ => ?_
  refine endsWithin_bind ⟨steady_exec _ p.segment, fun s hs => ?_⟩ fun e =>
    (brief_finish e).endsWithin
  exact (reaches_exec hmax k p.segment s hs).mono fun _ => Progress.le

/-- The counting run does what the run does, and counts no more than the limit. -/
theorem counts_runWithin {limits : Limits} (hmax : limits.steps = some max) (n : Nat)
    (p : Program) :
    Counts max Exit (runWithin n limits p) (runBy .counting n limits p) := by
  let cx : Setup := ⟨limits, p.scopes⟩
  have htick : ∀ i, Paired (Counts max) Unit fun second =>
      (Hooks.mk (fun _ => cond second (tickPast cx) (tick cx)) leaveCall).before i :=
    fun _ => counts_tick hmax
  have henv : Counts max EnvId (newEnv cx .root none) (newEnv cx .root none) :=
    congruence_counts.newEnv fun _ => (brief_fail _).counts
  refine counts_bind henv fun env => ?_
  refine counts_bind (brief_topFrame env).counts fun _ =>
    counts_bind ?_ fun e => (brief_finish e).counts
  rw [exec_eq_execBy]
  exact congruence_counts.execBy counts_outOfFuel htick
    (fun n hrun => upholds_counts n fun _ => hrun trivial) n trivial

/-- **A limit on the instructions ends every run**, whatever the other limits are; and at most so
many instructions get past the check of the limits. -/
theorem step_limit_ends (limits : Limits) {max : Nat} (hmax : limits.steps = some max)
    (room : Option Nat) (p : Program) :
    (∃ n, ∀ m, n ≤ m → (reportWithin m limits room p).Ended) ∧
    ∀ m, (passesWithin m limits room p).1 = reportWithin m limits room p ∧
      (passesWithin m limits room p).2 ≤ max := by
  have hends := endsWithin_runWithin (k := max + 1) hmax p
  have hcounts := fun m => counts_runWithin hmax m p { output := { room } } (Nat.zero_le max)
  refine ⟨?_, fun m => ?_⟩
  · obtain ⟨r, hr, -⟩ := hends.2 { output := { room } } (Nat.le_refl _)
    obtain ⟨n, rfl, hn⟩ := (lim_eq_some_iff hends.1).mp hr
    refine ⟨n, fun m hle => ended_reportWithin_iff.mpr ?_⟩
    rw [hends.1.eq_of_le hle hn]
    exact hn
  · have hm := hcounts m
    unfold passesWithin
    rw [reportWithin_eq]
    dsimp only
    generalize runWithin m limits p _ = r, runBy .counting m limits p _ = r' at hm
    cases hm with
    | ok a ht => exact ⟨rfl, ht⟩
    | error e t ht => exact ⟨rfl, ht⟩

/-- Never ends by itself: its test is always true, and its body is empty. -/
def endless : Program where
  code := [.whileTrue, .pushTrue, .loopBody, .endBlock .loop].map (⟨·, .root⟩)

theorem step_limit_ends_endless :
    (∃ n, ∀ m, n ≤ m → (reportWithin m { steps := some 7 } none endless).Ended) ∧
    (reportWithin 9 { steps := some 7 } none endless).result = .error (.fault (.stepLimit 7)) ∧
    (passesWithin 9 { steps := some 7 } none endless).2 ≤ 7 := by
  have hends := step_limit_ends { steps := some 7 } rfl none endless
  exact ⟨hends.1, by decide +kernel, (hends.2 9).2⟩

end StackCode.Machine
