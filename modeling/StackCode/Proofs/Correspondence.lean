import StackCode.Proofs.Worlds

/-!
# Code that does what an evaluation does

`Simulates below before m code leave`: started with the operands `before`, the code comes to what the
computation `m` of the evaluator comes to. When `m` has a value, the code has left its operands above
`below`; when a signal leaves `m`, the code ends with that signal; an exception is the same
exception. The one ends exactly when the other does.

There is a rule for each way in which code is put together, and for calls.
-/

namespace StackCode.Machine

open ScopeTree (Binds Hoists)
open Eval (World Locals Context Block Compute Interrupt Invocation)

variable {T : ScopeTree} {cx : Setup} {c : Scene} {here inside : Place} {α β : Type}

/-! ## Outcomes -/

/-- The signal of the machine for one of the evaluator. In a loop the value of a next is dropped. -/
inductive Carries (here : Place) : Signal → Signal → Prop
  | breakOut (h : here.inLoop = true) : Carries here .breakOut .breakOut
  | again {v : Option Value} (h : here.inLoop = true) : Carries here (.next v) (.next none)
  | finish {v : Value} (h : here.inLoop = false) (hb : here.body = .block) :
      Carries here (.next (some v)) (.next (some v))
  | ret {v : Value} (hb : here.body ≠ .block) : Carries here (.ret v) (.ret v)
  | halt : Carries here .halt .halt

/-- The code of a place came to what the evaluator came to: to a value and a state that satisfy `R`,
to a signal in a state that satisfies `J`, or to the same failure. -/
inductive Comes (here : Place) (R : α → World → State → Prop) (J : World → State → Prop) :
    EStateM.Result Interrupt World α → EStateM.Result Stop State Ended → Prop
  | ok {a : α} {w : World} {s : State} {stop : Nat} (h : R a w s) :
      Comes here R J (.ok a w) (.ok (none, stop) s)
  | signal {signal signal' : Signal} {w : World} {s : State} {stop : Nat}
      (hc : Carries here signal signal') (h : J w s) :
      Comes here R J (.error (.signal signal) w) (.ok (some signal', stop) s)
  | raised {e : Exception} {trace : List Activation} {w : World} {s : State}
      (h : s.output = w.output) :
      Comes here R J (.error (.raised e) w) (.error (.fault (.raised ⟨e, trace⟩)) s)
  | outputFull {w : World} {s : State} (h : s.output = w.output) :
      Comes here R J (.error .outputFull w) (.error (.fault .outputFull) s)

/-- The call is going on and there are operands above `below`, whatever they are. -/
def Above (T : ScopeTree) (c : Scene) (below : List Value) (w : World) (s : State) : Prop :=
  ∃ more, Has T c (more ++ below) w s

/-- The code does what the computation does, and leaves the operands `leave a` for the result
`a`. -/
def Simulates (T : ScopeTree) (cx : Setup) (c : Scene) (here : Place) (below before : List Value)
    (m : Nat → Compute α) (code : List Instruction) (leave : α → List Value) : Prop :=
  ∀ start w s, Has T c before w s →
    Option.Rel (Comes here (fun a => Has T c (leave a ++ below)) (Above T c below)) (lim m w)
      (den cx ⟨start, code⟩ s)

variable {below before before' above : List Value} {m : Nat → Compute α} {k : α → Nat → Compute β}
  {code code' tail : List Instruction} {leave : α → List Value} {leave' : β → List Value}
  {i : Instruction}

/-! ## Sequences -/

/-- What is left may be counted from further down. -/
theorem Simulates.frame (h : Simulates T cx c here (above ++ below) before m code leave) :
    Simulates T cx c here below before m code fun a => leave a ++ above := by
  intro start w s hs
  refine optionRel_mono (fun r r' hr => ?_) (h start w s hs)
  cases hr with
  | ok h => exact .ok (by rw [List.append_assoc]; exact h)
  | signal hc h =>
    obtain ⟨more, h⟩ := h
    exact .signal hc ⟨more ++ above, by rw [List.append_assoc]; exact h⟩
  | raised h => exact .raised h
  | outputFull h => exact .outputFull h

/-- Only the body and the loop of a place matter. -/
theorem Simulates.place (here : Place) (h : Simulates T cx c inside below before m code leave)
    (hloop : inside.inLoop = here.inLoop) (hbody : inside.body = here.body) :
    Simulates T cx c here below before m code leave := by
  intro start w s hs
  refine optionRel_mono (fun r r' hr => ?_) (h start w s hs)
  cases hr with
  | ok h => exact .ok h
  | signal hc h =>
    refine .signal ?_ h
    cases hc with
    | breakOut hin => exact .breakOut (hloop ▸ hin)
    | again hin => exact .again (hloop ▸ hin)
    | finish hin hb => exact .finish (hloop ▸ hin) (hbody ▸ hb)
    | ret hb => exact .ret (hbody ▸ hb)
    | halt => exact .halt
  | raised h => exact .raised h
  | outputFull h => exact .outputFull h

/-- The results of a computation satisfy `P`. -/
def Yields (m : Nat → Compute α) (P : α → Prop) : Prop := ∀ n w a w', m n w = .ok a w' → P a

theorem Yields.bind {P : α → Prop} {Q : β → Prop} (hm : Yields m P)
    (hk : ∀ a, P a → Yields (k a) Q) : Yields (fun n => m n >>= fun a => k a n) Q := by
  intro n w b w' h
  have h : EStateM.bind (m n) (fun a => k a n) w = .ok b w' := h
  unfold EStateM.bind at h
  split at h
  · rename_i a w₁ heq
    exact hk a (hm n w a w₁ heq) n w₁ b w' h
  · cases h

theorem yields_true (m : Nat → Compute α) : Yields m fun _ => True :=
  fun _ _ _ _ _ => trivial

theorem yields_pure {P : α → Prop} {a : α} (h : P a) : Yields (fun _ => pure a) P := by
  intro n w b w' heq
  cases heq
  exact h

/-- One piece of code after another, which may rely on what the first one results in. -/
theorem Simulates.bindOf {P : α → Prop} (hcx : cx.Unlimited) (hm : Steady m) (hP : Yields m P)
    (hk : ∀ a, Steady (k a)) (hn : WellNested code)
    (h : Simulates T cx c here below before m code leave)
    (h' : ∀ a, P a → Simulates T cx c here below (leave a ++ below) (k a) code' leave') :
    Simulates T cx c here below before (fun n => m n >>= fun a => k a n) (code ++ code') leave' := by
  intro start w s hs
  rw [lim_bind hm hk, den_append hcx hn]
  have hrel := h start w s hs
  unfold Partial.bind
  revert hrel
  generalize hx : lim m w = x
  generalize den cx ⟨start, code⟩ s = y
  rintro (hrel | _)
  · cases hrel with
    | ok h =>
      obtain ⟨n, heq, -⟩ := (lim_eq_some_iff hm).mp hx
      exact h' _ (hP _ _ _ _ heq) _ _ _ h
    | signal hc h => exact .some (.signal hc h)
    | raised h => exact .some (.raised h)
    | outputFull h => exact .some (.outputFull h)
  · exact .none

/-- One piece of code after another. -/
theorem Simulates.bind (hcx : cx.Unlimited) (hm : Steady m) (hk : ∀ a, Steady (k a))
    (hn : WellNested code) (h : Simulates T cx c here below before m code leave)
    (h' : ∀ a, Simulates T cx c here below (leave a ++ below) (k a) code' leave') :
    Simulates T cx c here below before (fun n => m n >>= fun a => k a n) (code ++ code') leave' :=
  h.bindOf hcx hm (yields_true m) hk hn fun a _ => h' a

theorem simulates_pure (leave : α → List Value) (a : α) :
    Simulates T cx c here below (leave a ++ below) (fun _ => pure a) [] leave := by
  intro start w s hs
  have hm : lim (fun _ => (pure a : Compute α)) w = some (.ok a w) :=
    lim_const rfl (not_ranOut_ok a w)
  rw [hm, den_nil]
  exact .some (.ok hs)

/-- A result that is turned into another one, without code. -/
theorem Simulates.map (hcx : cx.Unlimited) (hm : Steady m) (hn : WellNested code) {f : α → β}
    (h : Simulates T cx c here below before m code leave) (hf : ∀ a, leave' (f a) = leave a) :
    Simulates T cx c here below before (fun n => do return f (← m n)) code leave' := by
  rw [← List.append_nil code]
  refine h.bind hcx hm (fun _ => steady_const _) hn fun a => ?_
  rw [← hf a]
  exact simulates_pure leave' (f a)

variable {w : World} {s : State}

theorem Has.ticked (h : Has T c before w s) : Has T c before w s.ticked :=
  h.restack ⟨_, by rw [← h.stack_eq]; rfl⟩

/-- An instruction of which the evaluator has nothing to do. -/
theorem Simulates.act (hcx : cx.Unlimited) {act : Nat → Exec Unit} (hp : Performs cx i act)
    (hact : ∀ start w s, Has T c before w s →
      ∃ s', act start s = .ok () s' ∧ Has T c before' w s')
    (h : Simulates T cx c here below before' m code leave) :
    Simulates T cx c here below before m (i :: code) leave := by
  intro start w s hs
  obtain ⟨s', heq, hs'⟩ := hact start w _ hs.ticked
  rw [den_act hcx hp heq]
  exact h _ w s' hs'

/-- An instruction that changes on the machine what the evaluator changes. -/
theorem Simulates.change (hcx : cx.Unlimited) {act : Nat → Exec Unit} (hp : Performs cx i act)
    {g : World → World} (hm : Steady m) (hact : ∀ start w s, Has T c before w s →
      ∃ s', act start s = .ok () s' ∧ Has T c before' (g w) s')
    (h : Simulates T cx c here below before' m code leave) :
    Simulates T cx c here below before (fun n => modify g >>= fun _ => m n) (i :: code) leave := by
  intro start w s hs
  obtain ⟨s', heq, hs'⟩ := hact start w _ hs.ticked
  have hg : lim (fun _ => (modify g : Compute Unit)) w = some (.ok () (g w)) :=
    lim_const rfl (not_ranOut_ok () (g w))
  rw [den_act hcx hp heq, lim_bind (steady_const _) fun _ => hm, Partial.bind_of_eq_ok hg]
  exact h _ (g w) s' hs'

/-- An instruction that leaves a value which the evaluator reads off its state. -/
theorem simulates_read (hcx : cx.Unlimited) {act : Nat → Exec Unit} (hp : Performs cx i act)
    {g : World → Value} (hact : ∀ start w s, Has T c below w s →
      ∃ s', act start s = .ok () s' ∧ Has T c (g w :: below) w s') :
    Simulates T cx c here below below (fun _ => do return g (← get)) [i] fun v => [v] := by
  intro start w s hs
  obtain ⟨s', heq, hs'⟩ := hact start w _ hs.ticked
  have hm : lim (fun _ => (do return g (← get) : Compute Value)) w = some (.ok (g w) w) :=
    lim_const rfl (not_ranOut_ok _ w)
  rw [den_act hcx hp heq, den_nil, hm]
  exact .some (.ok hs')

/-- An instruction that ends the segment. What follows it does not matter. -/
theorem simulates_signal (hcx : cx.Unlimited) {signal signal' : Signal}
    (hc : Carries here signal signal') {rest : List Instruction}
    (hstep : ∀ start w s, Has T c before w s → ∃ s',
      step cx (exec cx 0) 0 i ⟨start + 1, rest⟩ s = .ok (some signal', ⟨start + 1, rest⟩) s' ∧
      Above T c below w s') :
    Simulates T cx c here below before (fun _ => (Eval.leave signal : Compute α)) (i :: rest)
      leave := by
  intro start w s hs
  obtain ⟨s', heq, hs'⟩ := hstep start w _ hs.ticked
  have hm : lim (fun _ => (Eval.leave signal : Compute α)) w = some (.error (.signal signal) w) :=
    lim_const rfl (mt ranOut_error_iff.mp (by nofun))
  rw [den_signal hcx heq, hm]
  exact .some (.signal hc hs')

/-! ## Branches -/

/-- A conditional. Its branches may stand in scopes of their own. -/
theorem simulates_cond (hcx : cx.Unlimited) {yes no : List Instruction} {v : Value}
    {a b z : ScopeId} (hy : WellNested yes) (hn : WellNested no) (hbase : c.frame.base ≤ before.length)
    {m' : Nat → Compute α}
    (hyes : v.isTruthy = true → Simulates T cx c here below before m yes leave)
    (hno : v.isTruthy = false → Simulates T cx c here below before m' no leave) :
    Simulates T cx c here below (v :: before) (fun n => if v.isTruthy then m n else m' n)
      (⟨.ifTrue, a⟩ :: (yes ++ ⟨.orElse, b⟩ :: (no ++ [⟨.endBlock .cond, z⟩]))) leave := by
  intro start w s hs
  rw [den_cond hcx rfl rfl rfl hy hn hs.stack_eq (by rw [hs.base]; exact hbase)]
  have hs' : Has T c before w { s.ticked with stack := before } := hs.restack ⟨_, rfl⟩
  -- whatever the branch comes to, nothing follows it
  have hbranch : ∀ {m : Nat → Compute α} {start : Nat} {code : List Instruction} {stop : Nat},
      Simulates T cx c here below before m code leave →
      Option.Rel (Comes here (fun a => Has T c (leave a ++ below)) (Above T c below)) (lim m w)
        ((den cx ⟨start, code⟩).bind (fun e => proceed cx (e.1, ⟨stop, []⟩))
          { s.ticked with stack := before }) := by
    intro m start code stop hm
    have hrel := hm start w _ hs'
    unfold Partial.bind
    revert hrel
    generalize lim m w = x
    generalize den cx ⟨start, code⟩ _ = y
    rintro (hrel | _)
    · cases hrel with
      | @ok a w s stop' h =>
        show Option.Rel _ _ (den cx ⟨stop, []⟩ s)
        rw [den_nil]
        exact .some (.ok h)
      | signal hc h => exact .some (.signal hc h)
      | raised h => exact .some (.raised h)
      | outputFull h => exact .some (.outputFull h)
    · exact .none
  cases hv : v.isTruthy with
  | true => exact hbranch (hyes hv)
  | false => exact hbranch (hno hv)

/-! ## Loops -/

/-- What a loop comes to: it leaves the operands that there were before it. -/
inductive LoopEnds (T : ScopeTree) (c : Scene) (here : Place) (below : List Value) :
    EStateM.Result Interrupt World Value → EStateM.Result Stop State (Option Signal) → Prop
  | ok {w : World} {s : State} (h : Has T c below w s) :
      LoopEnds T c here below (.ok .nil w) (.ok none s)
  | signal {signal signal' : Signal} {w : World} {s : State} (hc : Carries here signal signal')
      (h : Above T c below w s) :
      LoopEnds T c here below (.error (.signal signal) w) (.ok (some signal') s)
  | raised {e : Exception} {trace : List Activation} {w : World} {s : State}
      (h : s.output = w.output) :
      LoopEnds T c here below (.error (.raised e) w) (.error (.fault (.raised ⟨e, trace⟩)) s)
  | outputFull {w : World} {s : State} (h : s.output = w.output) :
      LoopEnds T c here below (.error .outputFull w) (.error (.fault .outputFull) s)

/-- Cutting the stack down brings the operands back that were below. -/
theorem Above.truncate (h : Above T c below w s) : Has T c below w (s.truncate below.length) := by
  obtain ⟨more, h⟩ := h
  refine h.restack ⟨s.steps, ?_⟩
  unfold State.truncate
  rw [h.stack_eq, List.length_append, Nat.add_sub_cancel, List.drop_left]

theorem lim_endRound (base : Nat) (signal : Option Signal) (s : State) :
    lim (fun _ => endRound base signal) s = some (endRound base signal s) := by
  refine lim_const rfl ?_
  rcases signal with _ | _ | _ | ⟨_ | _⟩ | _ <;> exact not_ranOut_ok _ _

/-- The signal of a round is taken up by the loop on both sides, or by neither. -/
theorem sameRound_signal (hloop : inside.inLoop = true) (hbody : inside.body = here.body)
    {signal signal' : Signal} (hc : Carries inside signal signal') (h : Above T c below w s) :
    SameRound (Has T c below) (LoopEnds T c here below)
      (Eval.caught Eval.roundAnswer (.error (.signal signal) w))
      (endRound below.length (some signal') s) := by
  cases hc with
  | breakOut => exact .ok h.truncate
  | again => exact h.truncate
  | finish hout => exact absurd (hloop.symm.trans hout) (by decide)
  | ret hb => exact .signal (.ret (hbody ▸ hb)) h
  | halt => exact .signal .halt h

/-- What follows the test of a round. -/
def afterTest (run : Segment → Exec Ended) (body : Segment) (index base : Nat) (e : Ended) :
    Exec (Option (Option Signal)) :=
  match e.1 with
  | some signal => endRound base (some signal)
  | none => do
    if (← pop index).isTruthy then endRound base (← run body).1
    else truncate base; return some none

theorem steady_afterTest (body : Segment) (index base : Nat) (e : Ended) :
    Steady fun n => afterTest (exec cx n) body index base e := by
  intro n
  unfold afterTest
  split
  · exact improves_refl _
  · refine (improves_refl _).bind fun v => ?_
    split
    · exact (improves_exec cx n body).bind fun _ => improves_refl _
    · exact improves_refl _

theorem lim_loopRound (test body : Segment) (index base : Nat) :
    lim (fun n => loopRound (exec cx n) test body index base) =
      (den cx test).bind fun e => lim fun n => afterTest (exec cx n) body index base e := by
  exact lim_bind (steady_exec cx test) (steady_afterTest body index base)

/-- After the test, with its value as the last operand. -/
theorem lim_afterTest {body : Segment} {v : Value} {index base stop : Nat}
    (hs : s.stack = v :: below) (hbase : s.base ≤ below.length) :
    lim (fun n => afterTest (exec cx n) body index base (none, stop)) s =
      if v.isTruthy then ((den cx body).bind fun e s => some (endRound base e.1 s))
        { s with stack := below }
      else some (.ok (some none) ({ s with stack := below }.truncate base)) := by
  have hpop : ∀ n, afterTest (exec cx n) body index base (none, stop) s =
      (if v.isTruthy then exec cx n body >>= fun e => endRound base e.1
        else do truncate base; return some none : Exec (Option (Option Signal)))
        { s with stack := below } := fun n => bind_of_eq_ok (pop_of_stack hs hbase index)
  rw [lim_eq_of_eq hpop]
  split
  · have hend : (fun e : Ended => lim fun _ => endRound base e.1) =
        fun e s => some (endRound base e.1 s) :=
      funext fun e => funext fun s => lim_endRound base e.1 s
    rw [lim_bind (steady_exec cx body) fun _ => steady_const _, hend]
    rfl
  · exact lim_const rfl (not_ranOut_ok _ _)

section

variable {test body : List Instruction} {mt : Nat → Compute Value} {mb : Nat → Compute Unit}
  (hbase : c.frame.base ≤ below.length) (hloop : inside.inLoop = true)
  (hbody : inside.body = here.body) (hmt : Steady mt) (hmb : Steady mb)
  (htest : Simulates T cx c inside below below mt test fun v => [v])
  (hrest : Simulates T cx c inside below below mb body fun _ => [])

include hbase hloop hbody hmt hmb htest hrest

/-- One round. -/
theorem rel_lim_round (start start' index : Nat) (hs : Has T c below w s) :
    Option.Rel (SameRound (Has T c below) (LoopEnds T c here below))
      (lim (fun n => Eval.round (mt n) (mb n)) w)
      (lim (fun n => loopRound (exec cx n) ⟨start, test⟩ ⟨start', body⟩ index below.length) s) := by
  let rest (v : Value) (n : Nat) : Compute (Option Value) :=
    if v.isTruthy then do mb n; return none else return some .nil
  have hsteady : ∀ v, Steady (rest v) := by
    intro v
    show Steady fun n => if v.isTruthy then _ else _
    split
    · exact hmb.bind fun _ => steady_const _
    · exact steady_const _
  have hround : lim (fun n => Eval.round (mt n) (mb n)) w =
      ((lim mt).bind (fun v => lim (rest v)) w).map (Eval.caught Eval.roundAnswer) := by
    rw [← lim_bind hmt hsteady]
    exact lim_mapResult (hmt.bind hsteady) (fun _ => Eval.ranOut_caught_iff) w
  rw [hround, lim_loopRound]
  have hrel := htest start w s hs
  unfold Partial.bind
  revert hrel
  generalize lim mt w = x
  generalize den cx ⟨start, test⟩ s = y
  rintro (hrel | _)
  · cases hrel with
    | @ok v w s stop h =>
      have hstack : s.stack = v :: below := h.stack_eq
      have hs' : Has T c below w { s with stack := below } := h.restack ⟨_, rfl⟩
      show Option.Rel _ ((lim (rest v) w).map _) (lim (fun n => afterTest _ _ _ _ (none, stop)) s)
      rw [lim_afterTest hstack (by rw [h.base]; exact hbase)]
      cases hv : v.isTruthy with
      | false =>
        have : lim (rest v) w = some (.ok (some .nil) w) :=
          lim_eq_some (n := 0) (hsteady v) (by simp only [rest, hv]; rfl) (not_ranOut_ok _ w)
        rw [this]
        exact .some (LoopEnds.ok (Above.truncate ⟨[], hs'⟩))
      | true =>
        have hlim : lim (rest v) = (lim mb).bind fun _ w => some (.ok none w) := by
          have hend : (fun _ : Unit => lim fun _ => (pure none : Compute (Option Value))) =
              fun _ w => some (.ok none w) :=
            funext fun _ => funext fun w => lim_const rfl (not_ranOut_ok _ w)
          rw [← hend, ← lim_bind hmb fun _ => steady_const _]
          exact congrArg lim (funext fun n => if_pos hv)
        rw [hlim]
        have hrel := hrest start' w _ hs'
        unfold Partial.bind
        revert hrel
        generalize lim mb w = x
        generalize den cx ⟨start', body⟩ _ = y
        rintro (hrel | _)
        · cases hrel with
          | ok h => exact .some (Above.truncate ⟨[], h⟩)
          | signal hc h => exact .some (sameRound_signal hloop hbody hc h)
          | raised h => exact .some (LoopEnds.raised h)
          | outputFull h => exact .some (LoopEnds.outputFull h)
        · exact .none
    | @signal signal signal' w s stop hc h =>
      show Option.Rel _ _ (lim (fun _ => endRound below.length (some signal')) s)
      rw [lim_endRound]
      exact .some (sameRound_signal hloop hbody hc h)
    | raised h => exact .some (LoopEnds.raised h)
    | outputFull h => exact .some (LoopEnds.outputFull h)
  · exact .none

/-- A loop, and the nil that is its value. -/
theorem simulates_loop (hcx : cx.Unlimited) {a b z scope : ScopeId} (ht : WellNested test)
    (hb : WellNested body) :
    Simulates T cx c here below below (fun n => rounds (Eval.round (mt n) (mb n)) n)
      (⟨.whileTrue, a⟩ :: (test ++ ⟨.loopBody, b⟩ ::
        (body ++ [⟨.endBlock .loop, z⟩, ⟨.pushNil, scope⟩]))) fun v => [v] := by
  intro start w s hs
  have hsteady : Steady fun n => Eval.round (mt n) (mb n) :=
    fun n => Eval.improves_round (hmt n) (hmb n)
  rw [den_loop hcx rfl rfl rfl ht hb, hs.stack_eq]
  have hrel := rel_lim_rounds hsteady (fun n => improves_loopRound (improves_exec cx n) _ _ _ _)
    (fun w s hs => rel_lim_round hbase hloop hbody hmt hmb htest hrest (start + 1)
      (start + 1 + test.length + 1) start hs) hs.ticked
  unfold Partial.bind
  revert hrel
  generalize lim (fun n => rounds (Eval.round (mt n) (mb n)) n) w = x
  generalize lim (fun n => rounds (loopRound (exec cx n) _ _ _ _) n) s.ticked = y
  rintro (hrel | _)
  · cases hrel with
    | @ok w s h =>
      have hpush : Performs cx ⟨.pushNil, scope⟩ fun _ => push .nil := fun _ _ _ => rfl
      show Option.Rel _ _ (den cx ⟨_, [⟨.pushNil, scope⟩]⟩ s)
      rw [den_act hcx hpush rfl, den_nil]
      exact .some (.ok (h.restack ⟨_, by rw [← h.stack_eq]; rfl⟩))
    | signal hc h => exact .some (.signal hc h)
    | raised h => exact .some (.raised h)
    | outputFull h => exact .some (.outputFull h)
  · exact .none

end

/-! ## Operands and variables -/

theorem Has.push (h : Has T c before w s) (v : Value) :
    Has T c (v :: before) w { s with stack := v :: s.stack } :=
  h.restack ⟨_, by rw [← h.stack_eq]⟩

theorem Has.pop {v : Value} (h : Has T c (v :: before) w s)
    (hbase : c.frame.base ≤ before.length) (index : Nat) :
    Machine.pop index s = .ok v { s with stack := before } ∧
      Has T c before w { s with stack := before } :=
  ⟨pop_of_stack h.stack_eq (by rw [h.base]; exact hbase) index, h.restack ⟨_, rfl⟩⟩

theorem Has.dup {v : Value} (h : Has T c (v :: before) w s)
    (hbase : c.frame.base ≤ before.length) (index : Nat) :
    ∃ s', (do Machine.push (← peek index)) s = .ok () s' ∧ Has T c (v :: v :: before) w s' := by
  have hpeek : peek index s = .ok v s := by
    have hlt : s.base < (v :: before).length := by
      rw [h.base, List.length_cons]
      omega
    unfold peek
    rw [h.stack_eq]
    exact if_pos hlt
  exact ⟨_, bind_of_eq_ok hpeek, h.push v⟩

/-- What an instruction that reads a variable does. -/
def loadLocal (cx : Setup) (scope : ScopeId) (name : String) (index : Nat) : Exec Unit := do
  let env := (← frame index).env
  checkLookup cx env scope name false index
  Machine.push (← liftLookup ((← get).envs.read env name))

theorem performs_getLocal (cx : Setup) (name : String) (scope : ScopeId) :
    Performs cx ⟨.getLocal name, scope⟩ (loadLocal cx scope name) :=
  fun _ _ _ => rfl

/-- What an instruction that changes a variable does. -/
def storeLocal (cx : Setup) (scope : ScopeId) (name : String) (localOnly : Bool) (index : Nat) :
    Exec Unit := do
  let v ← Machine.pop index
  let env := (← frame index).env
  checkLookup cx env scope name localOnly index
  let (owner, _) ← liftLookup ((← get).envs.resolve env name localOnly)
  modify fun s => { s with envs := s.envs.assign owner name v }

theorem performs_setLocal (cx : Setup) (name : String) (localOnly : Bool) (scope : ScopeId) :
    Performs cx ⟨.setLocal name localOnly, scope⟩ (storeLocal cx scope name localOnly) :=
  fun _ _ _ => rfl

/-- Reading a variable that is bound in the text. -/
theorem Has.getLocal (h : Has T c before w s) (hT : T.Proper) (hscopes : cx.scopes = T)
    {name : String} {scope r : ScopeId} {d : Nat} {slot : UInt64}
    (hb : Binds T name false scope d r slot) (hscope : Hoists T scope c.home) (index : Nat) :
    ∃ s', loadLocal cx scope name index s = .ok () s' ∧
      Has T c (w.read c.context.locals d name :: before) w s' := by
  obtain ⟨owner, env, own, htext, hrun, hlex, hget, hname, hholder, hown, hlike⟩ :=
    h.lookup hT hb hscope
  have hread : s.envs.read c.frame.env name = .ok (w.read c.context.locals d name) := by
    obtain ⟨v, hv⟩ := Option.isSome_iff_exists.mp hname
    simp only [EnvStore.read, hrun, bind, Except.bind, pure, Except.pure, World.read, hholder, hown,
      hget, Option.bind_some, hv, Option.getD_some, hlike.values name v hv]
  refine ⟨_, ?_, h.push _⟩
  rw [loadLocal, bind_of_eq_ok (frame_of_frames h.frames index),
    bind_of_eq_ok (checkLookup_eq hscopes htext hrun hlex)]
  show (liftLookup (s.envs.read c.frame.env name) >>= Machine.push) s = _
  rw [hread]
  rfl

/-- Changing a variable that is bound in the text. -/
theorem Has.setLocal {v : Value} (h : Has T c (v :: before) w s)
    (hbase : c.frame.base ≤ before.length) (hT : T.Proper) (hscopes : cx.scopes = T)
    {name : String} {localOnly : Bool} {scope r : ScopeId} {d : Nat} {slot : UInt64}
    (hb : Binds T name localOnly scope d r slot) (hscope : Hoists T scope c.home) (index : Nat) :
    ∃ s', storeLocal cx scope name localOnly index s = .ok () s' ∧
      Has T c before (w.assign c.context.locals d name v) s' := by
  obtain ⟨hpop, h⟩ := h.pop hbase index
  obtain ⟨owner, env, own, htext, hrun, hlex, hget, hname, hholder, hown, hlike⟩ :=
    h.lookup hT hb hscope
  refine ⟨_, ?_, h.update (h.like.assign hget hname hholder v) rfl
    ⟨EnvStore.keeps_assign _ _ _ _, fun _ _ hid => hid⟩ rfl⟩
  rw [storeLocal, bind_of_eq_ok hpop, bind_of_eq_ok (frame_of_frames h.frames index),
    bind_of_eq_ok (checkLookup_eq hscopes htext hrun hlex)]
  show (liftLookup (s.envs.resolve c.frame.env name localOnly) >>= _) _ = _
  rw [hrun]
  rfl

/-! ## Output -/

/-- What writing comes to. -/
inductive Writes (T : ScopeTree) (c : Scene) (below : List Value) :
    EStateM.Result Interrupt World Unit → EStateM.Result Stop State Unit → Prop
  | ok {w : World} {s : State} (h : Has T c below w s) : Writes T c below (.ok () w) (.ok () s)
  | outputFull {w : World} {s : State} (h : s.output = w.output) :
      Writes T c below (.error .outputFull w) (.error (.fault .outputFull) s)

theorem Has.write (h : Has T c below w s) (text : String) :
    Writes T c below (Eval.write text w) (Machine.write text s) := by
  have hs : Has T c below { w with output := w.output.put text }
      { s with output := s.output.put text } :=
    h.update (h.like.withOutput text) rfl (.of_eq rfl rfl) h.stack_eq
  rw [write_eq, h.like.output]
  unfold Eval.write
  split
  · exact .ok (h.like.output ▸ hs)
  · exact .outputFull rfl

/-- One text after another, until one does not fit. -/
theorem Has.writes (h : Has T c below w s) (text : Value → String) (args : List Value) :
    Writes T c below (args.forM (fun v => Eval.write (text v)) w)
      (args.forM (fun v => Machine.write (text v)) s) := by
  induction args generalizing w s with
  | nil => exact .ok h
  | cons v rest ih =>
    show Writes T c below (EStateM.bind (Eval.write (text v)) _ w)
      (EStateM.bind (Machine.write (text v)) _ s)
    have hrel := h.write (text v)
    unfold EStateM.bind
    revert hrel
    generalize Eval.write (text v) w = x
    generalize Machine.write (text v) s = y
    rintro (h | h)
    · exact ih h
    · exact .outputFull h

/-! ## Calls -/

/-- What a call comes to: it leaves the calls and operands that there were before it. -/
inductive CallEnds (T : ScopeTree) (c : Scene) (below : List Value) :
    EStateM.Result Interrupt World Value → EStateM.Result Stop State Completion → Prop
  | ok {v : Value} {w : World} {s : State} (h : Has T c below w s) :
      CallEnds T c below (.ok v w) (.ok (.value v) s)
  | halt {w : World} {s : State} (h : Has T c below w s) :
      CallEnds T c below (.error (.signal .halt) w) (.ok .halt s)
  | raised {e : Exception} {trace : List Activation} {w : World} {s : State}
      (h : s.output = w.output) :
      CallEnds T c below (.error (.raised e) w) (.error (.fault (.raised ⟨e, trace⟩)) s)
  | outputFull {w : World} {s : State} (h : s.output = w.output) :
      CallEnds T c below (.error .outputFull w) (.error (.fault .outputFull) s)

/-- The machine is about to make the call of the evaluator. -/
structure Enters (T : ScopeTree) (s : State) (inv : Invocation) (body : Segment) (scope : ScopeId)
    (parent : Option EnvId) (frame : EnvId → Nat → Frame) : Prop where
  body : LoweredBody T { scope, body := if inv.isBlock then .block else .method } inv.params
    inv.body inv.names body.code
  owned : ∃ owned, T.get? scope = some owned ∧ CanEnter T s owned parent
  parent : inv.parent = parent.map EnvId.index
  env : ∀ env base, (frame env base).env = env
  base : ∀ env base, (frame env base).base = base
  self : ∀ env base, (frame env base).self = inv.self
  args : ∀ env base, (frame env base).args = inv.args
  block : ∀ env base, Captures T s.procs inv.block (frame env base).block

/-- The evaluator and the machine agree on all calls inside which others may be nested `d` deep. -/
def CallsAgree (T : ScopeTree) (cx : Setup) (d : Nat) : Prop :=
  ∀ {c : Scene} {below : List Value} {w : World} {s : State} {inv : Invocation} {body : Segment}
    {scope : ScopeId} {parent : Option EnvId} {frame : EnvId → Nat → Frame},
    Has T c below w s → cx.limits.callDepth = c.outer.length + d →
    Enters T s inv body scope parent frame →
    Option.Rel (CallEnds T c below) (lim (fun n => Eval.invoke n d inv) w)
      (lim (fun n => call cx (exec cx n) body scope parent inv.isBlock frame) s)

theorem LikeMethod.enters {m : Eval.Method} {m' : Method} (h : LikeMethod T m m')
    {block : Option Block} {id : Option ProcId} (hblock : Captures T s.procs block id)
    (self : Value) (args : List Value) (callSite : Nat) :
    Enters T s (m.invocation self args block) m'.body m'.scope none fun env base =>
      { name := m'.name, callSite, args, env, block := id, self, base } where
  body := h.body
  owned := by
    obtain ⟨owned, hget, hh, hb⟩ := Op.opensMethod_iff.mp h.opens
    exact ⟨owned, hget, hh, fun _ hblock => absurd (hb.symm.trans hblock) (by decide)⟩
  parent := rfl
  env := fun _ _ => rfl
  base := fun _ _ => rfl
  self := fun _ _ => rfl
  args := fun _ _ => rfl
  block := fun _ _ => hblock

theorem Like.enters_block (h : Like T w s) {block : Block} {id : ProcId}
    (hblock : Captures T s.procs (some block) (some id)) (args : List Value) (callSite : Nat) :
    ∃ closure : Closure, s.procs[id]? = some closure ∧
      (block.invocation args).isBlock = true ∧
      Enters T s (block.invocation args) closure.body closure.scope (some closure.env)
        fun env base => { name := "block in " ++ closure.home, callSite, args, env,
                          block := closure.block, self := closure.self, base } := by
  cases hblock with
  | @some _ _ _ _ _ _ _ closure hid hbody hself hlocals hinner =>
    refine ⟨closure, hid, rfl, hbody, ?_, congrArg Option.some hlocals.symm, fun _ _ => rfl,
      fun _ _ => rfl, fun _ _ => hself, fun _ _ => rfl, fun _ _ => hinner⟩
    obtain ⟨env, henv, hopens⟩ := h.procs id closure hid
    obtain ⟨owned, outer, hget, hh, hb, ho, htarget⟩ := Op.opensBlock_iff.mp hopens
    refine ⟨owned, hget, hh, fun outer' _ ho' => ⟨_, env, rfl, henv, ?_⟩⟩
    rw [ho] at ho'
    cases ho'
    exact htarget

variable {d : Nat}

theorem steady_invoke (d : Nat) (inv : Invocation) : Steady fun n => Eval.invoke n d inv :=
  fun n => Eval.improves_invoke (Nat.le_succ n) d inv

/-- A message that writes has the value nil. -/
theorem rel_lim_written {x : Compute Unit} {y : Exec Unit} (h : Writes T c below (x w) (y s)) :
    Option.Rel (CallEnds T c below) (lim (fun _ => do x; return .nil) w)
      (lim (fun _ => do y; return .value .nil) s) := by
  revert h
  generalize hx : x w = rx
  generalize hy : y s = ry
  rintro (⟨h⟩ | ⟨h⟩)
  · rename_i w' s'
    have hleft : lim (fun _ => (do x; return .nil : Compute Value)) w = some (.ok .nil w') :=
      lim_const (by show EStateM.bind x _ w = _; unfold EStateM.bind; rw [hx]; rfl)
        (not_ranOut_ok _ _)
    have hright : lim (fun _ => (do y; return .value .nil : Exec Completion)) s =
        some (.ok (.value .nil) s') :=
      lim_const (by rw [bind_of_eq_ok hy]; rfl) (not_ranOut_ok _ _)
    rw [hleft, hright]
    exact .some (.ok h)
  · rename_i w' s'
    have hleft : lim (fun _ => (do x; return .nil : Compute Value)) w =
        some (.error .outputFull w') :=
      lim_const (by show EStateM.bind x _ w = _; unfold EStateM.bind; rw [hx])
        (mt ranOut_error_iff.mp (by nofun))
    have hright : lim (fun _ => (do y; return .value .nil : Exec Completion)) s =
        some (.error (.fault .outputFull) s') :=
      lim_const (by show EStateM.bind y _ s = _; unfold EStateM.bind; rw [hy])
        (mt ranOut_error_iff.mp (by nofun))
    rw [hleft, hright]
    exact .some (.outputFull h)

/-- **A message is dispatched the same way on both sides.** -/
theorem rel_lim_send (hcalls : CallsAgree T cx d) (hd : cx.limits.callDepth = c.outer.length + d)
    (h : Has T c below w s) {block : Option Block} {id : Option ProcId}
    (hblock : Captures T s.procs block id) (receiver : Option Value) (message : String)
    (args : List Value) (index : Nat) :
    Option.Rel (CallEnds T c below)
      (lim (fun n => Eval.send (Eval.invoke n d) c.context receiver message args block) w)
      (lim (fun n => dispatch cx (exec cx n) receiver message args id index
        (receiver.getD c.frame.self)) s) := by
  rw [c.self_eq]
  unfold Eval.send
  simp only [dispatch_eq]
  generalize receiver.getD c.context.self = target
  have hraised : ∀ e : Exception, Option.Rel (CallEnds T c below)
      (lim (fun _ => (Eval.raise e : Compute Value)) w)
      (lim (fun _ => (raise e : Exec Completion)) s) := by
    intro e
    have hleft : lim (fun _ => (Eval.raise e : Compute Value)) w = some (.error (.raised e) w) :=
      lim_const rfl (mt ranOut_error_iff.mp fun heq => by cases heq)
    have hright : lim (fun _ => (raise e : Exec Completion)) s =
        some (.error (.fault (.raised ⟨e, []⟩)) s) :=
      lim_const rfl (mt ranOut_error_iff.mp fun heq => by cases heq)
    rw [hleft, hright]
    exact .some (.raised h.like.output)
  have hvalue : ∀ v {w s}, Has T c below w s → Option.Rel (CallEnds T c below)
      (lim (fun _ => (pure v : Compute Value)) w)
      (lim (fun _ => (pure (.value v) : Exec Completion)) s) := by
    intro v w s h
    have hleft : lim (fun _ => (pure v : Compute Value)) w = some (.ok v w) :=
      lim_const rfl (not_ranOut_ok _ _)
    have hright : lim (fun _ => (pure (.value v) : Exec Completion)) s = some (.ok (.value v) s) :=
      lim_const rfl (not_ranOut_ok _ _)
    rw [hleft, hright]
    exact .some (.ok h)
  rcases Builtin.call? target message args with _ | e | v
  · have hmethod := h.like.methods message
    dsimp only
    rw [lim_get_bind, lim_get_bind]
    revert hmethod
    generalize w.methods.get? message = m
    generalize s.methods.get? message = m'
    rintro (hm | _)
    · dsimp only
      rw [hm.selfOnly]
      split
      · exact hraised _
      · exact hcalls h hd (hm.enters hblock _ _ _)
    · dsimp only
      -- the cases of the evaluator come first, and those of the machine inside of them
      generalize hmachine : (lim _ s : Option (EStateM.Result Stop State Completion)) = y
      split
      · subst hmachine
        show Option.Rel _ _
          (lim (fun _ => (do writeLines args; return .value .nil : Exec Completion)) s)
        rw [writeLines_eq]
        split
        · exact rel_lim_written (h.write "\n")
        · exact rel_lim_written (h.writes Value.line args)
      · subst hmachine
        exact rel_lim_written (h.writes Value.text args)
      · rename_i hputs hprint
        subst hmachine
        split
        · exact (hputs rfl rfl).elim
        · exact (hprint rfl rfl).elim
        · exact hraised _
  · exact hraised e
  · exact hvalue v h

/-- After a call: its value is left on the stack, a halt goes on outwards. -/
theorem rel_delivered {x : Option (EStateM.Result Interrupt World Value)}
    {y : Partial Stop State Completion} {stop : Nat} (h : Option.Rel (CallEnds T c below) x (y s)) :
    Option.Rel (Comes here (fun v => Has T c ([v] ++ below)) (Above T c below)) x
      (y.bind (delivered cx ⟨stop, []⟩) s) := by
  unfold Partial.bind
  revert h
  generalize y s = r
  rintro (h | _)
  · cases h with
    | @ok v w s h =>
      show Option.Rel _ _ (den cx ⟨stop, []⟩ { s with stack := v :: s.stack })
      rw [den_nil]
      exact .some (.ok (h.push v))
    | halt h => exact .some (.signal .halt ⟨[], h⟩)
    | raised h => exact .some (.raised h)
    | outputFull h => exact .some (.outputFull h)
  · exact .none

section

variable (hcx : cx.Unlimited) (hcalls : CallsAgree T cx d)
  (hd : cx.limits.callDepth = c.outer.length + d) (hbase : c.frame.base ≤ below.length)
  {args : List Value} {argc : UInt64} (hargs : args.length = argc.toNat) {scope : ScopeId}

include hcx hcalls hd hbase hargs

/-- A message with all its operands. -/
theorem rel_den_send {block : Option Block} (id : Option ProcId) (receiver : Option Value)
    (hs : Has T c ((id.map Value.proc).toList ++ (args.reverse ++ (receiver.toList ++ below))) w s)
    (hblock : Captures T s.procs block id) (message : String) (start : Nat) :
    Option.Rel (Comes here (fun v => Has T c ([v] ++ below)) (Above T c below))
      (lim (fun n => Eval.send (Eval.invoke n d) c.context receiver message args block) w)
      (den cx ⟨start, [⟨.send message argc receiver.isSome id.isSome, scope⟩]⟩ s) := by
  rw [den_send hcx hargs hs.stack_eq (by rw [hs.base]; exact hbase) hs.frames]
  have hs' : Has T c below w { s.ticked with stack := below } := hs.restack ⟨_, rfl⟩
  exact rel_delivered (rel_lim_send hcalls hd hs' hblock receiver message args start)

/-- A message without a block. -/
theorem simulates_send (receiver : Option Value) (message : String) :
    Simulates T cx c here below (args.reverse ++ (receiver.toList ++ below))
      (fun n => Eval.send (Eval.invoke n d) c.context receiver message args none)
      [⟨.send message argc receiver.isSome false, scope⟩] fun v => [v] :=
  fun start _ _ hs => rel_den_send hcx hcalls hd hbase hargs none receiver hs .none message start

/-- A block that is captured, and the message that it goes with. -/
theorem simulates_iter {body : List Instruction} {home a z : ScopeId} {params : List String}
    {text : List Expr} {names : Names} (hb : WellNested body)
    (hbody : LoweredBody T { scope := home, body := .block } params text (params :: names) body)
    (hopens : Op.opensBlock T c.home home = true) (receiver : Option Value) (message : String) :
    Simulates T cx c here below (args.reverse ++ (receiver.toList ++ below))
      (fun n => Eval.send (Eval.invoke n d) c.context receiver message args
        (some (.mk params text names c.context.self c.context.block c.context.locals)))
      (⟨.defineBlock home, a⟩ :: (body ++ [⟨.endBlock .block, z⟩,
        ⟨.send message argc receiver.isSome true, scope⟩])) fun v => [v] := by
  intro start w s hs
  obtain ⟨env, henv, hlex⟩ := hs.env
  rw [den_block hcx rfl rfl hb hs.frames]
  let closure := c.frame.capture ⟨start + 1, body⟩ home
  let s' : State := { s.ticked with
    procs := s.procs.push closure
    stack := .proc s.procs.size :: s.stack }
  have hlike : Like T w { s with procs := s.procs.push closure } :=
    hs.like.withProc henv (by rw [hlex]; exact hopens)
  have hlater : Later s s' :=
    ⟨(Later.refl s).envs, fun _ _ hid => getElem?_push_of_some hid⟩
  have hs' : Has T c (.proc s.procs.size :: (args.reverse ++ (receiver.toList ++ below))) w s' :=
    hs.update (hlike.congr rfl rfl rfl rfl rfl rfl) rfl hlater (by rw [← hs.stack_eq])
  have hnew : s'.procs[s.procs.size]? = some closure := by
    show (s.procs.push closure)[s.procs.size]? = _
    rw [Array.getElem?_push_size]
  have hblock : Captures T s'.procs _ (some s.procs.size) :=
    .some hnew hbody c.self_eq c.locals_eq hs'.block
  exact rel_den_send hcx hcalls hd hbase hargs (some s.procs.size) receiver hs' hblock message _

/-- A yield. -/
theorem simulates_yield : Simulates T cx c here below (args.reverse ++ below)
    (fun n => match c.context.block with
      | some block => Eval.invoke n d (block.invocation args)
      | none => Eval.raise .noBlock)
    [⟨.yield argc, scope⟩] fun v => [v] := by
  intro start w s hs
  have hs' : Has T c below w { s.ticked with stack := below } := hs.restack ⟨_, rfl⟩
  have hblock := hs'.block
  revert hblock
  generalize hb : c.context.block = block
  generalize hid : c.frame.block = id
  intro hblock
  cases hblock with
  | none =>
    have hleft : lim (fun _ => (Eval.raise .noBlock : Compute Value)) w =
        some (.error (.raised .noBlock) w) := lim_const rfl (mt ranOut_error_iff.mp (by nofun))
    rw [den_yield_noBlock hcx hargs hs.stack_eq (by rw [hs.base]; exact hbase) hs.frames hid, hleft]
    exact .some (.raised hs.like.output)
  | some hget hbody hself hlocals hinner =>
    have hcaptures := Captures.some hget hbody hself hlocals hinner
    obtain ⟨closure, hget', hisBlock, henters⟩ := hs'.like.enters_block hcaptures args start
    have hclosure : c.frame.block.bind (s.procs[·]?) = some closure := by rw [hid]; exact hget'
    rw [den_yield hcx hargs hs.stack_eq (by rw [hs.base]; exact hbase) hs.frames hclosure]
    exact rel_delivered (hcalls hs' hd henters)

end

/-- A method that is defined. -/
theorem simulates_method (hcx : cx.Unlimited) {body : List Instruction} {name : String}
    {home a z : ScopeId} {params : List String} {text : List Expr} (hb : WellNested body)
    (hbody : LoweredBody T { scope := home, body := .method } params text [params] body)
    (hopens : Op.opensMethod T home = true) :
    Simulates T cx c here below below (fun _ => do
        modify fun w =>
          let m : Eval.Method := { params, body := text, selfOnly := w.visibility = .selfOnly }
          { w with methods := w.methods.insert name m }
        return .sym name)
      (⟨.defineMethod name home, a⟩ :: (body ++ [⟨.endBlock .method, z⟩])) fun v => [v] := by
  intro start w s hs
  let m : Eval.Method := { params, body := text, selfOnly := w.visibility = .selfOnly }
  let m' : Method :=
    { name, body := ⟨start + 1, body⟩, scope := home, selfOnly := s.visibility = .selfOnly }
  have hleft : lim (fun _ => (do
        modify fun w =>
          let m : Eval.Method := { params, body := text, selfOnly := w.visibility = .selfOnly }
          { w with methods := w.methods.insert name m }
        return .sym name : Compute Value)) w =
      some (.ok (.sym name) { w with methods := w.methods.insert name m }) :=
    lim_const rfl (not_ranOut_ok _ _)
  have hm : LikeMethod T m m' := by
    refine ⟨?_, hopens, hbody⟩
    show decide (s.visibility = .selfOnly) = decide (w.visibility = .selfOnly)
    rw [hs.like.visibility]
  rw [den_method hcx rfl rfl hb, den_nil, hleft]
  refine .some (.ok (hs.update ((hs.like.withMethod name hm).congr rfl rfl rfl rfl rfl rfl) rfl
    (.of_eq rfl rfl) ?_))
  rw [← hs.stack_eq]
  rfl

/-! ## Entering a call -/

/-- A variable of the newest call. -/
theorem assign_push (w : World) (own : Locals) (name : String) (v : Value) :
    World.assign { w with locals := w.locals.push own } w.locals.size 0 name v =
      { w with locals := w.locals.push { own with values := own.values.insert name v } } := by
  have hholder : World.holder { w with locals := w.locals.push own } w.locals.size 0 =
      some w.locals.size := rfl
  rw [World.assign_eq hholder]
  congr 1
  apply Array.ext_getElem?
  intro i
  rw [Array.getElem?_modify, Array.getElem?_push, Array.getElem?_push]
  split
  · rename_i heq
    subst heq
    simp
  · rename_i hne
    rw [if_neg (Ne.symm hne), if_neg (Ne.symm hne)]

/-- The code at the beginning of a body binds the parameters. The induction is on them. -/
theorem den_bindingCode (hcx : cx.Unlimited) (hT : T.Proper) (hscopes : cx.scopes = T)
    (hbase : c.frame.base ≤ below.length) (hhome : c.home = here.scope)
    (hself : Hoists T here.scope here.scope) (hlocals : c.context.locals = w.locals.size)
    {params : List String} (hbound : ∀ name ∈ params, ∃ slot,
      Binds T name true here.scope 0 here.scope slot)
    {n : Nat} (hn : n + params.length ≤ 2 ^ 63) {own : Locals}
    (h : Has T c below { w with locals := w.locals.push own } s) (start : Nat)
    (tail : List Instruction) :
    ∃ start' s', Has T c below { w with locals := w.locals.push { own with
        values := Eval.bindParams params (c.frame.args.drop n) own.values } } s' ∧
      den cx ⟨start, bindingCode here n params ++ tail⟩ s = den cx ⟨start', tail⟩ s' := by
  induction params generalizing n own s start with
  | nil => exact ⟨start, s, h, rfl⟩
  | cons name rest ih =>
    obtain ⟨slot, hb⟩ := hbound name (List.mem_cons_self ..)
    have hn' : n + 1 + rest.length ≤ 2 ^ 63 := by
      rw [List.length_cons] at hn
      omega
    have hcount : n.toUInt64.toNat = n :=
      UInt64.toNat_ofNat_of_lt' (by show n < 2 ^ 64; omega)
    let v := c.frame.args[n]?.getD .nil
    have hpushed : (do push ((← frame start).args[n.toUInt64.toNat]?.getD .nil)) s.ticked =
        .ok () { s.ticked with stack := v :: s.stack } := by
      rw [bind_of_eq_ok (frame_of_frames h.ticked.frames start), hcount]
      rfl
    obtain ⟨s', hset, h'⟩ := (h.ticked.push v).ticked.setLocal hbase hT hscopes hb
      (hhome ▸ hself) (start + 1)
    rw [hlocals, assign_push] at h'
    obtain ⟨start', s'', h'', hden⟩ := ih (fun x hx => hbound x (List.mem_cons_of_mem _ hx)) hn' h'
      (start + 2)
    refine ⟨start', s'', ?_, ?_⟩
    · have htail : (c.frame.args.drop n).tail = c.frame.args.drop (n + 1) := by simp
      have hhead : (c.frame.args.drop n).headD .nil = v := by
        rw [List.headD_eq_head?_getD, List.head?_drop]
      rw [Eval.bindParams, htail, hhead]
      exact h''
    · have harg : Performs cx ⟨.pushArg n.toUInt64, here.scope⟩ (fun index => do
          push ((← frame index).args[n.toUInt64.toNat]?.getD .nil)) := fun _ _ _ => rfl
      exact (den_act hcx harg hpushed).trans
        ((den_act hcx (performs_setLocal cx name true here.scope) hset).trans hden)

/-- The callee of `c`, in the state `s`. -/
def Scene.callee {frame : EnvId → Nat → Frame} {inv : Invocation} {w : World} {s : State}
    (hself : ∀ env base, (frame env base).self = inv.self)
    (henv : ∀ env base, (frame env base).env = env) (hsize : w.locals.size = s.envs.envs.size)
    (home : ScopeId) : Scene where
  context := inv.context w.locals.size
  frame := frame s.envs.next s.stack.length
  outer := s.frames
  home := home
  entry := s
  self_eq := hself _ _
  locals_eq := by rw [henv, hsize]; rfl

/-- The state after a call, in which the caller goes on. -/
theorem Has.returned {callee : Scene} {w' : World} {s' : State} {more : List Value}
    (h : Has T c below w s) (h' : Has T callee (more ++ below) w' s') (hentry : callee.entry = s)
    (houter : callee.outer = s.frames) (hbase : callee.frame.base = below.length) :
    Has T c below w' s'.leaveCall := by
  have hleave : s'.leaveCall = { s' with frames := s.frames, stack := below } := by
    unfold State.leaveCall
    rw [h'.frames]
    dsimp only [State.truncate]
    rw [h'.stack_eq, hbase, houter, List.length_append, Nat.add_sub_cancel, List.drop_left]
  rw [hleave]
  have hlater : Later s s' := hentry ▸ h'.later
  exact h.update (h'.like.congr rfl rfl rfl rfl rfl rfl) rfl (hlater.trans (.of_eq rfl rfl)) rfl

theorem output_leaveCall (s : State) : s.leaveCall.output = s.output := by
  unfold State.leaveCall
  cases s.frames <;> rfl

theorem leaveCall_raised (e : Exception) (trace : List Activation) (s : State) :
    ∃ trace', leaveCall (.error (.fault (.raised ⟨e, trace⟩)) s) =
      .error (.fault (.raised ⟨e, trace'⟩)) s.leaveCall := by
  show ∃ trace', EStateM.Result.error (s.frames.head?.elim _ _) s.leaveCall = _
  cases s.frames.head? with
  | none => exact ⟨_, rfl⟩
  | some f => exact ⟨_, rfl⟩

theorem leaveCall_outputFull (s : State) :
    leaveCall (.error (.fault .outputFull) s) = .error (.fault .outputFull) s.leaveCall := by
  show EStateM.Result.error (s.frames.head?.elim _ _) s.leaveCall = _
  cases s.frames.head? with
  | none => rfl
  | some f => rfl

/-- What the body came to, as the end of the call. -/
theorem callEnds_of_comes {callee : Scene} (inv : Invocation) {w : World} {s : State}
    (h : Has T c below w s) (hentry : callee.entry = s) (houter : callee.outer = s.frames)
    (hbase : callee.frame.base = below.length) (hout : here.inLoop = false)
    (hkind : here.body = if inv.isBlock then .block else .method)
    {x : Option (EStateM.Result Interrupt World Value)} {y : Partial Stop State Ended} {s₁ : State}
    (hrel : Option.Rel (Comes here (fun v => Has T callee ([v] ++ below)) (Above T callee below)) x
      (y s₁)) :
    Option.Rel (CallEnds T c below) (x.map (Eval.caught inv.answer))
      ((y.bind (fun e s => some (complete inv.isBlock e s)) s₁).map leaveCall) := by
  unfold Partial.bind
  revert hrel
  generalize y s₁ = r
  rintro (hrel | _)
  · cases hrel with
    | @ok v w' s' stop h' =>
      have hpop := h'.pop (by rw [hbase]; exact Nat.le_refl _) (stop - 1)
      have hcomplete : complete inv.isBlock (none, stop) s' =
          .ok (.value v) { s' with stack := below } := by
        show (pop (stop - 1) >>= _) s' = _
        rw [bind_of_eq_ok hpop.1]
        rfl
      show Option.Rel _ (some (EStateM.Result.ok v w'))
        (some (leaveCall (complete inv.isBlock (none, stop) s')))
      rw [hcomplete]
      have hend : Has T callee ([] ++ below) w' { s' with stack := below } := hpop.2
      exact .some (.ok (h.returned hend hentry houter hbase))
    | @signal signal signal' w' s' stop hc h' =>
      obtain ⟨more, h'⟩ := h'
      have hend := h.returned h' hentry houter hbase
      cases hc with
      | breakOut hin | again hin => exact absurd (hin.symm.trans hout) (by decide)
      | finish _ hb =>
        have hisBlock : inv.isBlock = true := by
          rw [hkind] at hb
          split at hb
          · assumption
          · cases hb
        simp only [Option.map_some, Eval.caught, Invocation.answer, hisBlock, if_true, complete]
        exact .some (.ok hend)
      | ret hb =>
        have hisBlock : inv.isBlock = false := by
          rw [hkind] at hb
          split at hb
          · exact absurd rfl hb
          · rename_i hne
            exact Bool.not_eq_true _ ▸ hne
        simp only [Option.map_some, Eval.caught, Invocation.answer, hisBlock, complete]
        exact .some (.ok hend)
      | halt => exact .some (.halt hend)
    | @raised e trace w' s' h' =>
      obtain ⟨trace', htrace⟩ := leaveCall_raised e trace s'
      show Option.Rel _ _ (some (leaveCall (.error (.fault (.raised ⟨e, trace⟩)) s')))
      rw [htrace]
      exact .some (.raised ((output_leaveCall s').trans h'))
    | @outputFull w' s' h' =>
      show Option.Rel _ _ (some (leaveCall (.error (.fault .outputFull) s')))
      rw [leaveCall_outputFull]
      exact .some (.outputFull ((output_leaveCall s').trans h'))
  · exact .none

/-- The code of bodies in whose calls others may be nested `d` deep does what the text says. -/
def BodiesAgree (T : ScopeTree) (cx : Setup) (d : Nat) : Prop :=
  ∀ {c : Scene} {here : Place} {t t' : ScopeTree} {text : List Expr} {code : List Instruction}
    {names : Names} {below : List Value}, (∀ e ∈ text, Fits here.setting e) →
    Expr.lowerBody here t text = .ok (code, t') → View t here.scope c.home names → Settled t' T →
    cx.limits.callDepth = c.outer.length + d → c.frame.base ≤ below.length →
    Simulates T cx c here below below
      (fun n => Eval.evalBody n (Eval.invoke n d) c.context names text) code fun v => [v]

theorem callDepth_of_has (h : Has T c below w s) : s.callDepth = c.outer.length := by
  unfold State.callDepth
  rw [h.frames]
  rfl

/-- A call that is refused, on both sides. -/
theorem callsAgree_zero (T : ScopeTree) (cx : Setup) : CallsAgree T cx 0 := by
  intro c below w s inv body scope parent frame hs hd _
  have hleft : lim (fun n => Eval.invoke n 0 inv) w = some (.error (.raised .stackTooDeep) w) :=
    lim_const rfl (mt ranOut_error_iff.mp (by nofun))
  rw [hleft, lim_call_tooDeep (by rw [callDepth_of_has hs]; omega)]
  exact .some (.raised hs.like.output)

/-- A call that is entered: what the evaluator does. -/
theorem lim_invoke_succ {inv : Invocation}
    (harity : inv.isBlock = true ∨ inv.args.length = inv.params.length) (w : World) (d : Nat) :
    lim (fun n => Eval.invoke n (d + 1) inv) w =
      (lim (fun n => Eval.evalBody n (Eval.invoke n d) (inv.context w.locals.size) inv.names
        inv.body) { w with locals := w.locals.push inv.locals }).map (Eval.caught inv.answer) := by
  have hcond : ¬ (!inv.isBlock && decide (inv.args.length ≠ inv.params.length)) = true := by
    rcases harity with h | h <;> simp [h]
  have hsteady : Steady fun n => Eval.evalBody n (Eval.invoke n d) (inv.context w.locals.size)
      inv.names inv.body :=
    fun n => Eval.improves_evalBody (fun c => Eval.improves_invoke (Nat.le_succ n) d c)
      (Nat.le_succ n) _ _
  rw [← lim_mapResult hsteady fun _ => Eval.ranOut_caught_iff]
  refine lim_eq_of_eq fun n => ?_
  simp only [Eval.invoke, if_neg hcond]
  rfl

/-- The state inside a new call, before any of its code has run. -/
theorem Has.entered {inv : Invocation} {body : Segment} {scope : ScopeId} {parent : Option EnvId}
    {frame : EnvId → Nat → Frame} {owned : Scope} (hs : Has T c below w s)
    (he : Enters T s inv body scope parent frame) (hget : T.get? scope = some owned)
    (hcan : CanEnter T s owned parent) :
    Has T (Scene.callee he.self he.env hs.like.size scope) below
      { w with locals := w.locals.push { parent := inv.parent } }
      (s.entered (freshEnv owned scope parent) frame) := by
  have hlater : Later s (s.entered (freshEnv owned scope parent) frame) :=
    ⟨EnvStore.keeps_push s.envs _, fun _ _ hid => hid⟩
  refine ⟨?_, rfl, ⟨freshEnv owned scope parent, ?_, rfl⟩, (he.block _ _).later hlater, hlater,
    hs.stack_eq⟩
  · rw [he.parent]
    exact hs.like.enter hget hcan _
  · show (s.envs.push _).get? (frame s.envs.next s.stack.length).env = _
    rw [he.env, EnvStore.get?_push, if_pos rfl]

/-- What the instruction does that counts the arguments. -/
def checkArity (expected : UInt64) (index : Nat) : Exec Unit := do
  let given := (← frame index).args.length
  if given ≠ expected.toNat then raise (.wrongArity given expected.toNat)

theorem performs_checkArgs (cx : Setup) (expected : UInt64) (scope : ScopeId) :
    Performs cx ⟨.checkArgs expected, scope⟩ (checkArity expected) :=
  fun _ _ _ => rfl

theorem checkArity_eq (h : Has T c below w s) {params : List String}
    (hn : params.length < 2 ^ 63) (index : Nat) :
    checkArity params.length.toUInt64 index s =
      (if c.frame.args.length ≠ params.length
        then raise (.wrongArity c.frame.args.length params.length) else pure () : Exec Unit) s := by
  have hcount : params.length.toUInt64.toNat = params.length :=
    UInt64.toNat_ofNat_of_lt' (by show params.length < 2 ^ 64; omega)
  rw [checkArity, bind_of_eq_ok (frame_of_frames h.frames index), hcount]

/-- A method that has been given as many arguments as it has parameters goes on. -/
theorem den_arityCode (hcx : cx.Unlimited) (h : Has T c below w s) {params : List String}
    (hn : params.length < 2 ^ 63)
    (harity : here.body = .method → c.frame.args.length = params.length) (start : Nat)
    (tail : List Instruction) : ∃ start' s', Has T c below w s' ∧
      den cx ⟨start, arityCode here params ++ tail⟩ s = den cx ⟨start', tail⟩ s' := by
  unfold arityCode
  split
  · rename_i hmethod
    refine ⟨start + 1, s.ticked, h.ticked, den_act hcx (performs_checkArgs cx _ here.scope) ?_⟩
    rw [checkArity_eq h.ticked hn, if_neg (not_not.mpr (harity hmethod))]
    rfl
  · exact ⟨start, s, h, rfl⟩

/-- **Calls agree when bodies do.** -/
theorem callsAgree_succ (hcx : cx.Unlimited) (hT : T.Proper) (hscopes : cx.scopes = T)
    (hbodies : BodiesAgree T cx d) : CallsAgree T cx (d + 1) := by
  intro c below w s inv body scope parent frame hs hd he
  obtain ⟨owned, hget, hcan⟩ := he.owned
  have hdepth : s.callDepth < cx.limits.callDepth := by rw [callDepth_of_has hs]; omega
  rw [lim_call hdepth (by rw [hscopes]; exact hget)]
  have hin := hs.entered he hget hcan
  obtain ⟨start, code⟩ := body
  obtain ⟨t, t', inner, hview, hlower, hsettled, rfl⟩ := he.body.lowered
  let here : Place := { scope, body := if inv.isBlock then .block else .method }
  let callee := Scene.callee he.self he.env hs.like.size scope
  have hargs : callee.frame.args = inv.args := he.args _ _
  have hbase : callee.frame.base = below.length := (he.base _ _).trans (by rw [hs.stack_eq])
  by_cases harity : inv.isBlock = true ∨ inv.args.length = inv.params.length
  · -- the parameters are bound, and then the body runs
    have hcount : here.body = .method → callee.frame.args.length = inv.params.length := by
      intro hmethod
      rw [hargs]
      refine harity.resolve_left fun hblock => ?_
      simp only [here, hblock, if_true] at hmethod
      cases hmethod
    obtain ⟨start₁, s₁, h₁, hden₁⟩ := den_arityCode hcx hin he.body.counted hcount start
      (bindingCode here 0 inv.params ++ inner)
    obtain ⟨start₂, s₂, h₂, hden₂⟩ := den_bindingCode (n := 0) hcx hT hscopes
      (Nat.le_of_eq hbase) rfl (.self hget hcan.1) rfl he.body.bound
      (by have := he.body.counted; omega) h₁ start₁ inner
    have hden : den cx ⟨start, arityCode here inv.params ++ bindingCode here 0 inv.params ++ inner⟩
        (s.entered (freshEnv owned scope parent) frame) = den cx ⟨start₂, inner⟩ s₂ := by
      rw [List.append_assoc]
      exact hden₁.trans hden₂
    rw [lim_invoke_succ harity]
    have hdepth' : cx.limits.callDepth = callee.outer.length + d := by
      rw [hd]
      show _ = s.frames.length + d
      rw [hs.frames, List.length_cons]
      omega
    have hrel := hbodies (c := callee) he.body.fits hlower hview hsettled hdepth'
      (Nat.le_of_eq hbase) start₂ _ s₂ (hargs ▸ h₂)
    have hend := callEnds_of_comes inv hs rfl rfl hbase he.body.outside rfl hrel
    unfold callDen
    unfold Partial.bind at hend ⊢
    rw [hden]
    exact hend
  · obtain ⟨hisBlock, hne⟩ := not_or.mp harity
    have hisBlock : inv.isBlock = false := Bool.not_eq_true _ ▸ hisBlock
    have hmethod : here.body = .method := by simp only [here, hisBlock]; rfl
    have hleft : lim (fun n => Eval.invoke n (d + 1) inv) w =
        some (.error (.raised (.wrongArity inv.args.length inv.params.length)) w) := by
      have hcond : (!inv.isBlock && decide (inv.args.length ≠ inv.params.length)) = true := by
        simp [hisBlock, hne]
      refine lim_eq_some (n := 0) (steady_invoke (d + 1) inv) ?_ (mt ranOut_error_iff.mp (by nofun))
      simp only [Eval.invoke, if_pos hcond]
      rfl
    have hden : den cx ⟨start, arityCode here inv.params ++ bindingCode here 0 inv.params ++ inner⟩
        (s.entered (freshEnv owned scope parent) frame) =
        some (.error (.fault (.raised ⟨.wrongArity inv.args.length inv.params.length, []⟩))
          (s.entered (freshEnv owned scope parent) frame).ticked) := by
      rw [arityCode, if_pos hmethod]
      refine den_act_error hcx (performs_checkArgs cx _ scope) ?_
      rw [checkArity_eq hin.ticked he.body.counted, hargs, if_pos hne]
      rfl
    obtain ⟨trace, htrace⟩ := leaveCall_raised (.wrongArity inv.args.length inv.params.length) []
      (s.entered (freshEnv owned scope parent) frame).ticked
    rw [hleft, callDen, Partial.bind_of_eq_error hden, Option.map_some, htrace]
    exact .some (.raised ((output_leaveCall _).trans hs.like.output))

/-- Calls agree at any depth when bodies do. -/
theorem callsAgree (hcx : cx.Unlimited) (hT : T.Proper) (hscopes : cx.scopes = T)
    (hbodies : ∀ d, CallsAgree T cx d → BodiesAgree T cx d) (d : Nat) : CallsAgree T cx d := by
  induction d with
  | zero => exact callsAgree_zero T cx
  | succ d ih => exact callsAgree_succ hcx hT hscopes (hbodies d ih)

end StackCode.Machine
