import StackCode.Proofs.Congruence
import StackCode.Proofs.LoweredRuns

/-!
# Limits only cut runs short

Of two runs of a program, let the second have limits that allow as much as those of the first, and
as much room for output. Until a guard stops the first run, both are in the same state but for the
room that is left (`Roomier`). After that the second can only add to what is written (`Appends`). So
each part of the first run does what that of the second does, or is cut short (`Cut`), and
this is kept by whatever the parts are put together to (`cutsShort_exec`).

Main result: **`guards_only_cut`**.
-/

namespace StackCode.Machine

/-! ## Limits and guards -/

/-- A bound that allows as much as another; without one, everything is allowed. -/
def AtMost : Option Nat → Option Nat → Prop
  | _, none => True
  | none, some _ => False
  | some a, some b => a ≤ b

/-- The second limits allow as much as the first, and the same is checked. -/
structure Limits.Within (limits limits' : Limits) : Prop where
  callDepth : limits.callDepth ≤ limits'.callDepth
  steps : AtMost limits.steps limits'.steps
  stack : AtMost limits.stack limits'.stack
  checkScopes : limits'.checkScopes = limits.checkScopes

/-- The stops at a limit: for the instructions, the operands, the output or the calls. -/
def Stop.IsGuard : Stop → Prop
  | .fault (.stepLimit _) | .fault (.stackLimit _) | .fault .outputFull => True
  | .fault (.raised e) => e.exception = .stackTooDeep
  | _ => False

/-- A guard that stops a call stops the caller. -/
theorem Stop.IsGuard.leave {e : Stop} (h : e.IsGuard) (f : Frame) : (e.leave f).IsGuard := by
  cases e with
  | outOfFuel => exact h
  | fault e => cases e <;> exact h

theorem AtMost.cases {a b : Option Nat} (h : AtMost a b) :
    b = none ∨ ∃ x y, a = some x ∧ b = some y ∧ x ≤ y := by
  cases b with
  | none => exact .inl rfl
  | some y =>
    cases a with
    | none => exact False.elim h
    | some x => exact .inr ⟨x, y, rfl, rfl, h⟩

/-- What does not exceed a limit does not exceed a larger one. -/
theorem AtMost.filter_eq_none {a b : Option Nat} (h : AtMost a b) {n : Nat}
    (ha : a.filter (· < n) = none) : b.filter (· < n) = none := by
  rcases h.cases with rfl | ⟨x, y, rfl, rfl, hle⟩
  · rfl
  · have hx : n ≤ x := by simpa using ha
    simpa using Nat.le_trans hx hle

/-- What the first limits let through, the second do. -/
theorem Limits.Within.exceeded?_eq_none {limits limits' : Limits} (h : limits.Within limits')
    {steps height : Nat} (hnone : limits.exceeded? steps height = none) :
    limits'.exceeded? steps height = none := by
  unfold Limits.exceeded? at hnone ⊢
  split at hnone
  · cases hnone
  · cases hnone
  · rename_i hsteps hstack
    rw [h.steps.filter_eq_none hsteps, h.stack.filter_eq_none hstack]

/-- The limits on instructions and on the stack are guards. -/
theorem Limits.isGuard_of_exceeded? {limits : Limits} {steps height : Nat} {f : Fault}
    (h : limits.exceeded? steps height = some f) : (Stop.fault f).IsGuard := by
  unfold Limits.exceeded? at h
  split at h
  · cases h
    trivial
  · cases h
    trivial
  · cases h

/-! ## Room for output -/

namespace Output

variable {o o' : Output}

/-- A text is written as far as there is room. -/
theorem written_put (o : Output) (text : String) : (o.put text).written.toList =
    o.written.toList ++ o.room.elim text.toUTF8.data.toList (text.toUTF8.data.toList.take ·) := by
  unfold put
  cases o.room with
  | none => exact Array.toList_append
  | some room => simp

theorem room_put (o : Output) (text : String) :
    (o.put text).room = o.room.map (· - text.toUTF8.data.size) := by
  unfold put
  cases o.room with
  | none => rfl
  | some room => rfl

/-- The second output has as much room, and the same is written. -/
def Roomier (o o' : Output) : Prop := o'.written = o.written ∧ AtMost o.room o'.room

/-- A text that fits fits where there is more room. -/
theorem Roomier.takes (h : o.Roomier o') {text : String} (ht : o.takes text) : o'.takes text := by
  unfold Output.takes at ht ⊢
  rcases h.2.cases with hnone | ⟨x, y, hx, hy, hle⟩
  · rw [hnone]
  · rw [hx] at ht
    rw [hy]
    simp only [decide_eq_true_eq] at ht ⊢
    exact Nat.le_trans ht hle

/-- Nothing is cut off a text that fits. -/
theorem take_room_of_takes {text : String} (ht : o.takes text) :
    o.room.elim text.toUTF8.data.toList (text.toUTF8.data.toList.take ·) =
      text.toUTF8.data.toList := by
  unfold takes at ht
  cases hroom : o.room with
  | none => rfl
  | some room =>
    rw [hroom] at ht
    exact List.take_of_length_le (of_decide_eq_true ht)

/-- A text for which there is room is written in the same way. -/
theorem Roomier.put (h : o.Roomier o') {text : String} (ht : o.takes text) :
    (o.put text).Roomier (o'.put text) := by
  refine ⟨Array.toList_inj.mp ?_, ?_⟩
  · rw [written_put, written_put, take_room_of_takes ht, take_room_of_takes (h.takes ht), h.1]
  · rw [room_put, room_put]
    rcases h.2.cases with hnone | ⟨x, y, hx, hy, hle⟩
    · rw [hnone]
      trivial
    · rw [hx, hy]
      exact Nat.sub_le_sub_right hle _

/-- What is written of a text is the beginning of what is written of it with more room. -/
theorem Roomier.prefix_put (h : o.Roomier o') (text : String) :
    (o.put text).written.toList <+: (o'.put text).written.toList := by
  rw [written_put, written_put, h.1]
  refine (List.prefix_append_right_inj _).mpr ?_
  rcases h.2.cases with hnone | ⟨x, y, hx, hy, hle⟩
  · rw [hnone]
    cases o.room with
    | none => exact List.prefix_rfl
    | some room => exact List.take_prefix ..
  · rw [hx, hy]
    exact List.take_prefix_take_left hle

end Output

/-! ## What is written -/

variable {α β : Type}

/-- What has been written when a computation ends. -/
def wrote : EStateM.Result Stop State α → List UInt8
  | .ok _ t | .error _ t => t.output.written.toList

/-- The computation only adds to what is written. -/
def Appends (m : Exec α) : Prop := ∀ s : State, s.output.written.toList <+: wrote (m s)

/-- What is written stays written. -/
theorem Appends.bind {m : Exec α} {f : α → Exec β} (hm : Appends m) (hf : ∀ a, Appends (f a)) :
    Appends (m >>= f) := by
  intro s
  have h := hm s
  show _ <+: wrote (EStateM.bind m f s)
  unfold EStateM.bind
  generalize m s = r at h
  cases r with
  | ok a t => exact h.trans (hf a t)
  | error e t => exact h

/-- A computation that leaves alone what is written. -/
theorem appends_of_wrote {m : Exec α} (h : ∀ s, wrote (m s) = s.output.written.toList) :
    Appends m := by
  intro s
  exact h s ▸ List.prefix_rfl

theorem appends_write (text : String) : Appends (write text) := by
  intro s
  have hput : s.output.written.toList <+: (s.output.put text).written.toList := by
    rw [Output.written_put]
    exact List.prefix_append ..
  rw [write_eq]
  split
  · exact hput
  · exact hput

/-- Leaving a call writes nothing. -/
theorem wrote_leaveCall (r : EStateM.Result Stop State Completion) :
    wrote (leaveCall r) = wrote r := by
  have leave : ∀ t : State, t.leaveCall.output = t.output := by
    intro t
    unfold State.leaveCall
    split <;> rfl
  cases r with
  | ok c t => exact congrArg (·.written.toList) (leave t)
  | error e t => exact congrArg (·.written.toList) (leave t)

/-- A call appends if its body does. -/
theorem appends_call (cx : Setup) {run : Segment → Exec Ended} {body : Segment}
    {isBlock : Bool} (hrun : Appends (run body >>= complete isBlock)) (scope : ScopeId)
    (parent : Option EnvId) (frame : EnvId → Nat → Frame) :
    Appends (call cx run body scope parent isBlock frame) := by
  intro s
  rw [call_eq]
  split
  · exact List.prefix_rfl
  split
  · exact List.prefix_rfl
  · rw [wrote_leaveCall]
    rename_i env henv
    exact hrun { s with envs := s.envs.push env
                        frames := frame s.envs.next s.stack.length :: s.frames }

/-! ## Two runs -/

/-- The second state has as much room for output, and is otherwise the same. -/
def Roomier (s s' : State) : Prop :=
  ∃ o, s.output.Roomier o ∧ s' = { s with output := o }

/-- What can become of the first of two runs: the same as of the second, or a guard cuts it short
and the second goes on. -/
inductive Cut : EStateM.Result Stop State α → EStateM.Result Stop State α → Prop
  | ok (a : α) {t t' : State} : Roomier t t' → Cut (.ok a t) (.ok a t')
  | error (e : Stop) {t t' : State} : Roomier t t' → Cut (.error e t) (.error e t')
  | guard {e : Stop} {t : State} {r : EStateM.Result Stop State α} : e.IsGuard →
    t.output.written.toList <+: wrote r → Cut (.error e t) r

/-- The first computation does what the second does, or is cut short by a guard. -/
def CutsShort (α : Type) (m m' : Exec α) : Prop :=
  Appends m' ∧ ∀ s s', Roomier s s' → Cut (m s) (m' s')

/-- Once the first computation is cut short, the second run can only append. -/
theorem cutsShort_bind {m m' : Exec α} {f f' : α → Exec β} (hm : CutsShort α m m')
    (hf : ∀ a, CutsShort β (f a) (f' a)) : CutsShort β (m >>= f) (m' >>= f') := by
  refine ⟨hm.1.bind fun a => (hf a).1, fun s s' hs => ?_⟩
  show Cut (EStateM.bind m f s) (EStateM.bind m' f' s')
  have h := hm.2 s s' hs
  unfold EStateM.bind
  generalize m s = r, m' s' = r' at h
  cases h with
  | ok a ht => exact (hf a).2 _ _ ht
  | error e ht => exact .error e ht
  | guard he hw =>
    -- Only the second run goes on.
    refine .guard he ?_
    cases r' with
    | ok a t' => exact hw.trans ((hf a).1 t')
    | error e t' => exact hw

/-- The result with another output. -/
def putOutput (o : Output) : EStateM.Result Stop State α → EStateM.Result Stop State α
  | .ok a t => .ok a { t with output := o }
  | .error e t => .error e { t with output := o }

/-- The computation neither writes nor looks at the output. -/
def Silent (m : Exec α) : Prop := ∀ s o, m { s with output := o } = putOutput o (m s)

/-- What does not look at the output does the same with more room for it. -/
theorem Silent.cutsShort {m : Exec α} (h : Silent m) : CutsShort α m m := by
  have same : ∀ s, m s = putOutput s.output (m s) := fun s => h s s.output
  refine ⟨fun s => ?_, ?_⟩
  · rw [same]
    cases m s <;> exact List.prefix_rfl
  · rintro s _ ⟨o, ho, rfl⟩
    rw [h s o, same]
    cases m s with
    | ok a t => exact .ok a ⟨o, ho, rfl⟩
    | error e t => exact .error e ⟨o, ho, rfl⟩

theorem silent_fail {f : Fault} : Silent (fail f : Exec α) := fun _ _ => rfl

theorem silent_pop (index : Nat) : Silent (pop index) := by
  intro s o
  rcases s.operand_cases with hlow | ⟨v, below, hs, hbase⟩
  · rw [pop_of_length_le hlow, pop_of_length_le (s := { s with output := o }) hlow]
    rfl
  · rw [pop_of_stack hs hbase, pop_of_stack (s := { s with output := o }) hs hbase]
    rfl

theorem silent_peek (index : Nat) : Silent (peek index) := by
  intro s o
  rcases s.operand_cases with hlow | ⟨v, below, hs, hbase⟩
  · rw [peek_of_length_le hlow, peek_of_length_le (s := { s with output := o }) hlow]
    rfl
  · rw [peek_of_stack hs hbase, peek_of_stack (s := { s with output := o }) hs hbase]
    rfl

theorem silent_popN (n : UInt64) (index : Nat) : Silent (popN n index) := by
  intro s o
  have hbase : State.base { s with output := o } = s.base := rfl
  unfold popN
  rw [hbase]
  dsimp only
  split <;> rfl

theorem silent_frame (index : Nat) : Silent (frame index) := by
  intro s o
  rw [frame_eq_match, frame_eq_match]
  dsimp only
  split <;> rfl

/-- Writing is cut short where the room ends. -/
theorem cutsShort_write (text : String) : CutsShort Unit (write text) (write text) := by
  refine ⟨appends_write text, ?_⟩
  rintro s _ ⟨o, ho, rfl⟩
  rw [write_eq, write_eq]
  dsimp only
  split
  · rename_i ht
    rw [if_pos (ho.takes ht)]
    exact .ok () ⟨_, ho.put ht, rfl⟩
  · refine .guard trivial ?_
    split
    · exact ho.prefix_put text
    · exact ho.prefix_put text

/-- The operations of the machine are cut short at most. -/
theorem congruence_cutsShort : Congruence .any (Paired CutsShort) where
  pure a := Silent.cutsShort fun _ _ => rfl
  bind := cutsShort_bind
  fail f _ := silent_fail.cutsShort
  read hf := by
    refine ⟨fun s => (paired_of_shared hf rfl (Terms.holds_any _)).1 s, ?_⟩
    rintro s _ ⟨o, ho, rfl⟩
    have hshared : State.shared { s with output := o } = s.shared := rfl
    exact (paired_of_shared hf hshared (Terms.holds_any _)).2 s _ ⟨o, ho, rfl⟩
  update g _ := Silent.cutsShort fun _ _ => rfl
  push v := Silent.cutsShort fun _ _ => rfl
  pop index := (silent_pop index).cutsShort
  peek index := (silent_peek index).cutsShort
  popN n index := (silent_popN n index).cutsShort
  frame index hf := cutsShort_bind (silent_frame index).cutsShort fun f => hf f trivial
  write := cutsShort_write

theorem cutsShort_outOfFuel {α : Type} : CutsShort α (throw .outOfFuel) (throw .outOfFuel) :=
  Silent.cutsShort fun _ _ => rfl

theorem cutsShort_truncate (height : Nat) :
    CutsShort Unit (truncate height) (truncate height) :=
  Silent.cutsShort fun _ _ => rfl

variable {cx cx' : Setup}

/-- The check of the limits stops the run with the smaller ones first. -/
theorem cutsShort_tick (h : cx.limits.Within cx'.limits) :
    CutsShort Unit (tick cx) (tick cx') := by
  have hwrote : ∀ s, wrote (tick cx' s) = s.output.written.toList := by
    intro s
    rw [tick_eq]
    split <;> rfl
  refine ⟨appends_of_wrote hwrote, ?_⟩
  intro s s' hs
  have hsame : s.output.written.toList = wrote (tick cx' s') := by
    obtain ⟨o, ho, rfl⟩ := hs
    rw [hwrote, ho.1]
  rw [tick_eq cx]
  split
  · rename_i hnone
    obtain ⟨o, ho, rfl⟩ := hs
    rw [tick_eq]
    dsimp only
    rw [h.exceeded?_eq_none hnone]
    exact .ok () ⟨o, ho, rfl⟩
  · rename_i f hf
    refine .guard (Limits.isGuard_of_exceeded? hf) ?_
    exact hsame ▸ List.prefix_rfl

theorem Cut.leaveCall {r r' : EStateM.Result Stop State Completion} (h : Cut r r') :
    Cut (leaveCall r) (leaveCall r') := by
  have leave : ∀ {t t' : State}, Roomier t t' → Roomier t.leaveCall t'.leaveCall := by
    rintro t _ ⟨o, ho, rfl⟩
    unfold State.leaveCall
    dsimp only
    split
    · exact ⟨o, ho, rfl⟩
    · exact ⟨o, ho, rfl⟩
  cases h with
  | ok c ht => exact .ok c (leave ht)
  | @error e t t' ht =>
    have hframes : t'.frames = t.frames := by
      obtain ⟨o, -, rfl⟩ := ht
      rfl
    show Cut (.error (t.frames.head?.elim e e.leave) _) (.error (t'.frames.head?.elim e e.leave) _)
    rw [hframes]
    exact .error _ (leave ht)
  | @guard e t r he hw =>
    have hguard : (t.frames.head?.elim e e.leave).IsGuard := by
      cases t.frames.head? with
      | none => exact he
      | some f => exact he.leave f
    have hwrote : t.leaveCall.output.written.toList = t.output.written.toList :=
      wrote_leaveCall (.error e t)
    refine .guard hguard ?_
    rw [hwrote, wrote_leaveCall]
    exact hw

/-- A call is cut short by the limit on nested calls, or as its body is. -/
theorem cutsShort_call (h : cx.limits.Within cx'.limits) (hscopes : cx'.scopes = cx.scopes)
    {run : Bool → Segment → Exec Ended}
    (hrun : ∀ seg, CutsShort Ended (run false seg) (run true seg))
    (body : Segment) (scope : ScopeId) (parent : Option EnvId) (isBlock : Bool)
    (frame : EnvId → Nat → Frame) :
    CutsShort Completion (call cx (run false) body scope parent isBlock frame)
      (call cx' (run true) body scope parent isBlock frame) := by
  have hbody := cutsShort_bind (hrun body) (congruence_cutsShort.complete isBlock)
  have happends := appends_call cx' hbody.1 scope parent frame
  refine ⟨happends, ?_⟩
  rintro s _ ⟨o, ho, rfl⟩
  rw [call_eq cx]
  by_cases hdepth : cx.limits.callDepth ≤ s.callDepth
  · rw [if_pos hdepth]
    refine .guard rfl ?_
    rw [← ho.1]
    exact happends { s with output := o }
  · have hdepth' : ¬ cx'.limits.callDepth ≤ s.callDepth := by
      have := h.callDepth
      omega
    rw [if_neg hdepth, call_eq]
    show Cut _ (if cx'.limits.callDepth ≤ s.callDepth then _ else _)
    rw [if_neg hdepth', hscopes]
    split
    · exact .error _ ⟨o, ho, rfl⟩
    · rename_i env henv
      let entered : State := { s with envs := s.envs.push env
                                      frames := frame s.envs.next s.stack.length :: s.frames }
      exact (hbody.2 entered _ ⟨o, ho, rfl⟩).leaveCall

/-- Instructions are cut short at most if the code that they run is. -/
theorem upholds_cutsShort (h : cx.limits.Within cx'.limits) (hscopes : cx'.scopes = cx.scopes)
    {run : Bool → Segment → Exec Ended} (n : Nat)
    (hrun : ∀ seg, CutsShort Ended (run false seg) (run true seg)) :
    Upholds .any (Paired CutsShort) (fun _ => leaveCall) (fun second => cond second cx' cx) run
      fun _ => n where
  toCongruence := congruence_cutsShort
  runs _ := hrun _
  lookup _ env _ _ :=
    congruence_cutsShort.checkLookup (Bool.forall_bool.mpr ⟨rfl, hscopes⟩)
      (Bool.forall_bool.mpr ⟨rfl, h.checkScopes⟩) (fun _ => silent_fail.cutsShort) env _
  call _ _ parent isBlock := cutsShort_call h hscopes hrun _ _ parent isBlock _
  whileTrue {test body} _ _ index := by
    have hloop := fun base => congruence_cutsShort.loop cutsShort_outOfFuel (hrun test) (hrun body)
      (cutsShort_truncate base) index n
    refine ⟨fun s => (hloop s.stack.length).1 s, ?_⟩
    rintro s _ ⟨o, ho, rfl⟩
    exact (hloop s.stack.length).2 s _ ⟨o, ho, rfl⟩

/-- **Code is cut short at most.** -/
theorem cutsShort_exec (h : cx.limits.Within cx'.limits) (hscopes : cx'.scopes = cx.scopes)
    (n : Nat) (seg : Segment) : CutsShort Ended (exec cx n seg) (exec cx' n seg) := by
  have htick : ∀ i, Paired CutsShort Unit fun second =>
      (Hooks.plain (cond second cx' cx)).before i := fun _ => cutsShort_tick h
  rw [exec_eq_execBy, exec_eq_execBy]
  exact congruence_cutsShort.execBy cutsShort_outOfFuel htick
    (fun n hrun => upholds_cutsShort h hscopes n fun _ => hrun trivial) n trivial

/-! ## Runs -/

variable {limits limits' : Limits}

/-- A whole run is cut short at most. -/
theorem cutsShort_runWithin (h : limits.Within limits') (n : Nat) (p : Program) :
    CutsShort Exit (runWithin n limits p) (runWithin n limits' p) := by
  have hfinish : ∀ e, Silent (finish e) := by
    rintro ⟨_ | _ | _ | _ | _, stop⟩ s o <;> rfl
  have henv : CutsShort EnvId (newEnv ⟨limits, p.scopes⟩ .root none)
      (newEnv ⟨limits, p.scopes⟩ .root none) :=
    congruence_cutsShort.newEnv fun _ => silent_fail.cutsShort
  refine cutsShort_bind henv fun env => ?_
  refine cutsShort_bind (Silent.cutsShort fun _ _ => rfl) fun _ => ?_
  refine cutsShort_bind ?_ fun e => (hfinish e).cutsShort
  refine cutsShort_exec h ?_ n p.segment
  rfl

/-- The run has ended: the fuel was enough. -/
def Report.Ended (r : Report) : Prop := r.result ≠ .error .outOfFuel

/-- A limit has ended the run. -/
def Report.Guarded (r : Report) : Prop := ∃ e, r.result = .error e ∧ e.IsGuard

/-- A report says that the fuel ran out when it did. -/
theorem ended_reportWithin_iff {n : Nat} {room : Option Nat} {p : Program} :
    (reportWithin n limits room p).Ended ↔
      ¬ RanOut (runWithin n limits p { output := { room } }) := by
  unfold Report.Ended
  rw [reportWithin_eq, Ne, result_report_eq_iff]

/-- A run that has ended does not change with more fuel. -/
theorem reportWithin_eq_of_le {n m : Nat} (hle : n ≤ m) {room : Option Nat} {p : Program}
    (h : (reportWithin n limits room p).Ended) :
    reportWithin m limits room p = reportWithin n limits room p := by
  rw [reportWithin_eq, reportWithin_eq,
    (steady_runWithin limits p).eq_of_le hle (ended_reportWithin_iff.mp h)]

theorem wrote_eq_report (r : EStateM.Result Stop State Exit) :
    wrote r = (report r).output.written.toList := by
  cases r <;> rfl

/-- A run that is cut short has written the beginning of what the other writes. -/
theorem Cut.isPrefix_wrote {r r' : EStateM.Result Stop State α} (h : Cut r r') :
    wrote r <+: wrote r' := by
  cases h with
  | ok a ht =>
    obtain ⟨o, ho, rfl⟩ := ht
    exact ⟨[], (List.append_nil _).trans (congrArg Array.toList ho.1.symm)⟩
  | error e ht =>
    obtain ⟨o, ho, rfl⟩ := ht
    exact ⟨[], (List.append_nil _).trans (congrArg Array.toList ho.1.symm)⟩
  | guard he hw => exact hw

/-- The reports of two runs of which the first may be cut short. -/
theorem Cut.report {r r' : EStateM.Result Stop State Exit} (h : Cut r r') :
    (report r).Guarded ∨ ((report r').result = (report r).result ∧
      (report r').stack = (report r).stack ∧
      (report r').output.written = (report r).output.written) := by
  cases h with
  | ok a ht =>
    obtain ⟨o, ho, rfl⟩ := ht
    exact .inr ⟨rfl, rfl, ho.1⟩
  | error e ht =>
    obtain ⟨o, ho, rfl⟩ := ht
    exact .inr ⟨rfl, rfl, ho.1⟩
  | guard he hw => exact .inl ⟨_, rfl, he⟩

/-- A guard ends the run. -/
theorem Report.Guarded.ended {r : Report} (h : r.Guarded) : r.Ended := by
  obtain ⟨e, hr, he⟩ := h
  intro hout
  rw [hr] at hout
  cases hout
  exact he

/-- **Limits only cut runs short.** Let the second run of a program have limits that allow as much
as those of the first. If the first ends, and not at a limit, then the second ends with the same
result, operands and output. Whenever the second ends, the first has ended, and what the first has
written is the beginning of what the second has. -/
theorem guards_only_cut (hlimits : limits.Within limits') {room room' : Option Nat}
    (hroom : AtMost room room') (p : Program) :
    (∀ n m, n ≤ m → (reportWithin n limits room p).Ended →
      ¬ (reportWithin n limits room p).Guarded →
      (reportWithin m limits' room' p).result = (reportWithin n limits room p).result ∧
      (reportWithin m limits' room' p).stack = (reportWithin n limits room p).stack ∧
      (reportWithin m limits' room' p).output.written =
        (reportWithin n limits room p).output.written) ∧
    ∀ m, (reportWithin m limits' room' p).Ended → (reportWithin m limits room p).Ended ∧
      ∀ n, (reportWithin n limits room p).Ended →
        (reportWithin n limits room p).output.written.toList <+:
          (reportWithin m limits' room' p).output.written.toList := by
  have hcut : ∀ n, Cut (runWithin n limits p { output := { room } })
      (runWithin n limits' p { output := { room := room' } }) := fun n =>
    (cutsShort_runWithin hlimits n p).2 _ _ ⟨{ room := room' }, ⟨rfl, hroom⟩, rfl⟩
  have hreport := fun n => (hcut n).report
  simp only [← reportWithin_eq] at hreport
  refine ⟨fun n m hle hended hguard => ?_, fun m hended => ?_⟩
  · obtain ⟨hresult, hrest⟩ := (hreport n).resolve_left hguard
    have hended' : (reportWithin n limits' room' p).Ended := by
      unfold Report.Ended
      rw [hresult]
      exact hended
    rw [reportWithin_eq_of_le hle hended']
    exact ⟨hresult, hrest⟩
  · have hfirst : (reportWithin m limits room p).Ended := by
      rcases hreport m with hguard | ⟨hresult, -⟩
      · exact hguard.ended
      · unfold Report.Ended
        rw [← hresult]
        exact hended
    refine ⟨hfirst, fun n hn => ?_⟩
    have hsame : reportWithin n limits room p = reportWithin m limits room p := by
      rcases Nat.le_total n m with hle | hle
      · exact (reportWithin_eq_of_le hle hn).symm
      · exact reportWithin_eq_of_le hle hfirst
    have hwrote := (hcut m).isPrefix_wrote
    rw [wrote_eq_report, wrote_eq_report, ← reportWithin_eq, ← reportWithin_eq] at hwrote
    rw [hsame]
    exact hwrote

/-- Prints two numbers, one after the other, and needs five steps for it. -/
def printTwo : Program where
  code := [.pushInt 1, .send "puts" 1 false false, .pop,
    .pushInt 2, .send "puts" 1 false false].map (⟨·, .root⟩)

theorem guards_only_cut_printTwo :
    (reportWithin 9 { steps := some 4, stack := some 1 } (some 4) printTwo).Guarded ∧
    (reportWithin 9 { steps := some 4, stack := some 1 } (some 4)
        printTwo).output.written.toList <+:
      (reportWithin 9 { steps := some 5 } none printTwo).output.written.toList ∧
    (reportWithin 9 { steps := some 5 } none printTwo).result = .ok (.finished (some .nil)) ∧
    (reportWithin 9 {} none printTwo).stack =
      (reportWithin 9 { steps := some 5 } none printTwo).stack := by
  have hfirst : (reportWithin 9 { steps := some 4, stack := some 1 } (some 4) printTwo).result =
      .error (.fault (.stepLimit 4)) := by decide +kernel
  have hsecond : (reportWithin 9 { steps := some 5 } none printTwo).result =
      .ok (.finished (some .nil)) := by decide +kernel
  have hguard : (reportWithin 9 { steps := some 4, stack := some 1 } (some 4) printTwo).Guarded :=
    ⟨_, hfirst, trivial⟩
  have hended : (reportWithin 9 { steps := some 5 } none printTwo).Ended := by
    unfold Report.Ended
    rw [hsecond]
    nofun
  have hnot : ¬ (reportWithin 9 { steps := some 5 } none printTwo).Guarded := by
    rintro ⟨e, he, -⟩
    rw [hsecond] at he
    cases he
  have hwithin : Limits.Within { steps := some 4, stack := some 1 } { steps := some 5 } :=
    ⟨Nat.le_refl _, Nat.le_succ 4, trivial, rfl⟩
  have hwithin' : Limits.Within { steps := some 5 } {} := ⟨Nat.le_refl _, trivial, trivial, rfl⟩
  have hroom : ∀ room, AtMost room none := fun _ => trivial
  exact ⟨hguard, ((guards_only_cut hwithin (hroom _) printTwo).2 9 hended).2 9 hguard.ended,
    hsecond, ((guards_only_cut hwithin' (hroom _) printTwo).1 9 9 (Nat.le_refl 9) hended hnot).2.1⟩

end StackCode.Machine
