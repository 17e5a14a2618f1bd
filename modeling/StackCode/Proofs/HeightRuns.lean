import StackCode.Proofs.Heights
import StackCode.Proofs.CompiledRuns

/-!
# Runs of code with checked heights

The height check does not see where a `break` or a `next` leads: code that it accepts can still run
out of operands (`breakBelow_outOfStack`). It does not when every way out of a loop stands at no less
than the height at which the loop began, and then the operands that are left at the end are as many
as the check says (`checked_run_keeps_heights`).

The invariant of a run is that the stack is as high, above the base of the current call, as the check
found before the run, and that the bodies of all methods and captured blocks were checked.
-/

namespace StackCode.Machine

variable {α : Type} {cx : Setup} {run : Segment → Exec Ended} {calls : List Frame} {h k : Nat}
  {s s' : State} {p q : Point} {index : Nat}

/-! ## Operands are there -/

/-- The stop is not for want of an operand. -/
def Stop.Stocked : Stop → Prop
  | .fault (.malformed e) => e.cause ≠ .outOfStack
  | _ => True

/-- Leaving a call changes the backtrace of a stop, not its cause. -/
theorem Stop.Stocked.leave {e : Stop} (he : e.Stocked) (f : Frame) : (e.leave f).Stocked := by
  cases e with
  | outOfFuel => exact he
  | fault e => cases e <;> exact he

/-- No operand is missing, and `Q` holds in the end. -/
abbrev Supplied (m : Exec α) (Q : α → State → Prop) (s : State) : Prop := Meets Stop.Stocked m Q s

/-- A body whose heights were checked. -/
def LevelBody (kind : BodyKind) (scope : ScopeId) (code : List Instruction) : Prop :=
  ∃ b, Nested levelled (.start kind scope) code b ∧ b.height = 1

/-- The calls `calls` are active, the innermost one has `h` operands, and all bodies were checked. -/
structure Level (calls : List Frame) (h : Nat) (s : State) : Prop where
  frames : s.frames = calls
  height : s.stack.length = floorOf calls + h
  methods : ∀ name m, s.methods.get? name = some m → LevelBody .method m.scope m.body.code
  procs : ∀ (id : ProcId) c, s.procs[id]? = some c → LevelBody .block c.scope c.body.code

/-- The operands of the current call begin where the innermost call says. -/
theorem Level.base (hs : Level calls h s) : s.base = floorOf calls := by
  rw [s.base_eq_floorOf, hs.frames]

/-- A state that differs in the operands, and in nothing else that matters here. -/
theorem Level.congr (hs : Level calls h s) (hframes : s'.frames = s.frames)
    (hmethods : s'.methods = s.methods) (hprocs : s'.procs = s.procs)
    (hheight : s'.stack.length = floorOf calls + k) : Level calls k s' where
  frames := hframes.trans hs.frames
  height := hheight
  methods := hmethods ▸ hs.methods
  procs := hprocs ▸ hs.procs

theorem Level.pushed (hs : Level calls h s) (v : Value) :
    Level calls (h + 1) { s with stack := v :: s.stack } :=
  hs.congr rfl rfl rfl (by rw [List.length_cons, hs.height]; omega)

theorem supplied_push (hs : Level calls h s) (v : Value) :
    Supplied (push v) (fun _ => Level calls (h + 1)) s :=
  meets_of_eq rfl (hs.pushed v)

/-- Where the check found an operand there is one, above the base of the call. -/
theorem Level.exists_top (hs : Level calls (h + 1) s) : ∃ v below, s.stack = v :: below ∧
    s.base ≤ below.length ∧ Level calls h { s with stack := below } := by
  have hheight := hs.height
  cases hstack : s.stack with
  | nil =>
    rw [hstack, List.length_nil] at hheight
    omega
  | cons v below =>
    rw [hstack, List.length_cons] at hheight
    refine ⟨v, below, rfl, by rw [hs.base]; omega, hs.congr rfl rfl rfl ?_⟩
    show below.length = _
    omega

/-- A pop is supplied wherever the check found a height above zero. -/
theorem supplied_pop (hs : Level calls (h + 1) s) :
    Supplied (pop index) (fun _ => Level calls h) s := by
  obtain ⟨v, below, hstack, hbase, hs'⟩ := hs.exists_top
  exact meets_of_eq (pop_of_stack hstack hbase index) hs'

theorem supplied_peek (hs : Level calls (h + 1) s) :
    Supplied (peek index) (fun _ => Level calls (h + 1)) s := by
  obtain ⟨v, below, hstack, hbase, -⟩ := hs.exists_top
  refine meets_of_eq (a := v) ?_ hs
  unfold peek
  rw [hstack]
  exact if_pos (Nat.lt_succ_of_le hbase)

/-- The operands of a message are taken together. -/
theorem supplied_popN {n : UInt64} (hs : Level calls (h + n.toNat) s) :
    Supplied (popN n index) (fun _ => Level calls h) s := by
  have hheight := hs.height
  have hstack : s.stack = (s.stack.take n.toNat).reverse.reverse ++ s.stack.drop n.toNat := by
    rw [List.reverse_reverse, List.take_append_drop]
  have hbelow : (s.stack.drop n.toNat).length = floorOf calls + h := by
    rw [List.length_drop]
    omega
  have hargs : (s.stack.take n.toNat).reverse.length = n.toNat := by
    rw [List.length_reverse, List.length_take]
    omega
  exact meets_of_eq (popN_of_stack hstack (by rw [hs.base]; omega) hargs index)
    (hs.congr rfl rfl rfl hbelow)

/-- Cutting the stack down to a height at which the current call has been. -/
theorem Level.truncated (hs : Level calls k s) (hk : h ≤ k) :
    Level calls h (s.truncate (floorOf calls + h)) := by
  refine hs.congr rfl rfl rfl ?_
  have := hs.height
  show (s.stack.drop (s.stack.length - (floorOf calls + h))).length = _
  rw [List.length_drop]
  omega

/-! ## Steps that leave the operands alone -/

/-- Code malformed for another reason does not miss an operand. -/
theorem supplied_malformed {Q : α → State → Prop} {cause : Malformed.Cause}
    (hc : cause ≠ .outOfStack) : Supplied (malformed index cause) Q s := hc

theorem supplied_frame (hs : Level calls h s) :
    Supplied (frame index) (fun _ => Level calls h) s := by
  refine Meets.bind (R := fun _ => Level calls h) (meets_of_eq rfl hs) fun t s hs => ?_
  cases t.frames with
  | nil => exact supplied_malformed nofun
  | cons f rest => exact meets_pure hs

theorem supplied_newEnv {scope : ScopeId} {parent : Option EnvId} (hs : Level calls h s) :
    Supplied (newEnv cx scope parent) (fun _ => Level calls h) s := by
  unfold newEnv
  split
  · exact hs.congr rfl rfl rfl hs.height
  · trivial

theorem supplied_liftLookup {r : Except UnknownVariable α} (hs : Level calls h s) :
    Supplied (liftLookup r) (fun _ => Level calls h) s := by
  cases r with
  | ok a => exact meets_pure hs
  | error e => trivial

/-- A lookup needs no operand, whether it succeeds or not. -/
theorem supplied_checkLookup {env : EnvId} {scope : ScopeId} {name : String} {localOnly : Bool}
    (hs : Level calls h s) :
    Supplied (checkLookup cx env scope name localOnly index) (fun _ => Level calls h) s := by
  unfold checkLookup
  split
  · split
    · trivial
    · refine (supplied_liftLookup hs).bind fun expected s hs => ?_
      refine Meets.bind (R := fun _ => Level calls h) (meets_of_eq rfl hs) fun t s hs => ?_
      refine (supplied_liftLookup hs).bind fun ⟨owner, depth⟩ s hs => ?_
      dsimp only
      split
      · exact supplied_malformed nofun
      · exact meets_pure hs
  · exact meets_pure hs

theorem Level.withOutput (hs : Level calls h s) (out : Output) :
    Level calls h { s with output := out } :=
  hs.congr rfl rfl rfl hs.height

/-! ## How code ends -/

/-- The state in which a signal was raised. One that a loop takes up finds the operands from before
the loop. -/
def LevelRaise (calls : List Frame) (floor : Nat) (signal : Signal) (s : State) : Prop :=
  ∃ h, Level calls h s ∧ (signal = .breakOut ∨ signal = .next none → floor ≤ h)

/-- How an instruction or a loop leaves the current call: with `h` operands, or with a signal. -/
def LevelLeave (calls : List Frame) (floor h : Nat) : Option Signal → State → Prop
  | none, s => Level calls h s
  | some signal, s => LevelRaise calls floor signal s

/-- Checked code comes to the height that the check found. -/
def RunsLevel (run : Segment → Exec Ended) : Prop :=
  ∀ {p q : Point} {code : List Instruction}, Nested levelled p code q →
    ∀ (start : Nat) {calls : List Frame} {s : State}, Level calls p.height s →
      Supplied (run ⟨start, code⟩) (fun e => LevelLeave calls p.floor q.height e.1) s

/-- A signal that no loop takes up may be raised at any height. -/
theorem levelRaise_of_not_exit {floor : Nat} {signal : Signal} (hs : Level calls h s)
    (hbreak : signal ≠ .breakOut) (hnext : signal ≠ .next none) :
    LevelRaise calls floor signal s :=
  ⟨h, hs, fun hexit => absurd hexit (by simp [hbreak, hnext])⟩

/-! ## Calls -/

/-- A body that runs off its end finds its one value, and one that a signal leaves needs none. -/
theorem supplied_complete (isBlock : Bool) {floor : Nat} {e : Ended}
    (he : LevelLeave calls floor 1 e.1 s) :
    Supplied (complete isBlock e) (fun _ s' => ∃ k, Level calls k s') s := by
  obtain ⟨signal, stop⟩ := e
  cases signal with
  | none => exact (supplied_pop (h := 0) he).bind fun v s hs => meets_pure ⟨0, hs⟩
  | some signal =>
    obtain ⟨k, hs, -⟩ := he
    cases signal with
    | breakOut => exact supplied_malformed nofun
    | halt => exact meets_pure ⟨k, hs⟩
    | ret v =>
      cases isBlock with
      | true => exact supplied_malformed nofun
      | false => exact meets_pure ⟨k, hs⟩
    | next v =>
      cases v with
      | none => exact supplied_malformed nofun
      | some v =>
        cases isBlock with
        | true => exact meets_pure ⟨k, hs⟩
        | false => exact supplied_malformed nofun

/-- A call begins without operands of its own. -/
theorem Level.entered (hs : Level calls h s) {f : Frame} (hbase : f.base = s.stack.length) :
    Level (f :: calls) 0 { s with frames := f :: s.frames } :=
  ⟨by rw [hs.frames], hbase.symm, hs.methods, hs.procs⟩

/-- A call that is left takes its operands with it, however many it has. -/
theorem Level.left {f : Frame} (hs : Level (f :: calls) k s) (hbase : f.base = floorOf calls + h) :
    Level calls h s.leaveCall := by
  unfold State.leaveCall
  rw [hs.frames]
  refine ⟨rfl, ?_, hs.methods, hs.procs⟩
  have hheight : s.stack.length = f.base + k := hs.height
  show (s.stack.drop (s.stack.length - f.base)).length = _
  rw [List.length_drop]
  omega

/-- A body run inside a call gives back the operands from before the call. -/
theorem supplied_leaveCall {m : Exec Completion} {f : Frame}
    (hm : Supplied m (fun _ s' => ∃ k, Level (f :: calls) k s') s)
    (hbase : f.base = floorOf calls + h) :
    Supplied (fun s => leaveCall (m s)) (fun _ => Level calls h) s := by
  refine meets_leaveCall (fun _ f he => he.leave f) hm fun _ s' hs => ?_
  obtain ⟨k, hk⟩ := hs
  exact hk.left hbase

/-- **A call of a checked body comes back**, with the operands from before it. -/
theorem supplied_call (hrun : RunsLevel run) (hs : Level calls h s) {kind : BodyKind}
    {scope : ScopeId} {parent : Option EnvId} {body : Segment} {isBlock : Bool}
    (hbody : LevelBody kind scope body.code) {frame : EnvId → Nat → Frame}
    (hbase : ∀ env base, (frame env base).base = base) :
    Supplied (call cx run body scope parent isBlock frame) (fun _ => Level calls h) s := by
  obtain ⟨b, hnested, hb⟩ := hbody
  unfold call
  refine Meets.bind (R := fun _ => Level calls h) (meets_of_eq rfl hs) fun t s hs => ?_
  split
  · exact Meets.bind (R := fun _ _ => False) trivial fun _ _ h => h.elim
  refine (supplied_newEnv hs).bind fun env s hs => ?_
  have hin := hs.entered (hbase env s.stack.length)
  have hbody := (hrun hnested body.start hin).bind fun e s he =>
    supplied_complete isBlock (hb ▸ he)
  exact supplied_leaveCall hbody ((hbase env _).trans hs.height)

/-! ## Messages -/

/-- Built-in methods need no operand, and the others have checked bodies. -/
theorem supplied_dispatch (hrun : RunsLevel run) (hs : Level calls h s) {receiver : Option Value}
    {message : String} {args : List Value} {block : Option ProcId} {target : Value} :
    Supplied (dispatch cx run receiver message args block index target)
      (fun _ => Level calls h) s := by
  simp only [dispatch_eq]
  split
  · exact meets_pure hs
  · trivial
  refine Meets.bind (R := fun t s => t.methods = s.methods ∧ Level calls h s)
    (meets_of_eq rfl ⟨rfl, hs⟩) fun t s ⟨hmethods, hs⟩ => ?_
  split
  · rename_i m hm
    rw [hmethods] at hm
    split
    · trivial
    · exact supplied_call hrun hs (hs.methods message m hm) fun _ _ => rfl
  split
  · exact (meets_writeLines (fun _ out hs => hs.withOutput out) trivial hs args).bind
      fun _ _ hs => meets_pure hs
  · exact (meets_writeAll (fun _ out hs => hs.withOutput out) trivial hs _ args).bind
      fun _ _ hs => meets_pure hs
  · trivial

theorem supplied_send (hrun : RunsLevel run) (hs : Level calls h s) {receiver : Option Value}
    {message : String} {args : List Value} {block : Option ProcId} :
    Supplied (send cx run receiver message args block index) (fun _ => Level calls h) s := by
  rw [send_eq]
  cases receiver with
  | some v => exact supplied_dispatch hrun hs
  | none => exact (supplied_frame hs).bind fun f s hs => supplied_dispatch hrun hs

/-- What a call comes to is one operand more. -/
theorem supplied_deliver {floor : Nat} (hs : Level calls h s) (r : Completion) :
    Supplied (deliver r) (LevelLeave calls floor (h + 1)) s := by
  cases r with
  | value v => exact (supplied_push hs v).bind fun _ _ hs => meets_pure hs
  | halt => exact meets_pure (levelRaise_of_not_exit hs nofun nofun)

/-! ## Loops -/

/-- **A loop leaves the height that it found**, however many rounds it makes. -/
theorem supplied_loop (hrun : RunsLevel run) {t b : Point} {test body : List Instruction}
    (htest : Nested levelled p.inLoop test t) (ht : t.height = p.height + 1)
    (hbody : Nested levelled p.inLoop body b) (hb : b.height = p.height)
    (atTest atBody n : Nat) (hs : Level calls p.height s) :
    Supplied (loop run ⟨atTest, test⟩ ⟨atBody, body⟩ index (floorOf calls + p.height) n)
      (LevelLeave calls p.floor p.height) s := by
  -- a signal that the loop takes up was raised above the height of the first round, and cuts the
  -- stack down to it
  have cutDown : ∀ {signal : Signal} {s : State}, LevelRaise calls p.inLoop.floor signal s →
      signal = .breakOut ∨ signal = .next none →
      Level calls p.height (s.truncate (floorOf calls + p.height)) := by
    intro signal s hr hexit
    obtain ⟨k, hs, hk⟩ := hr
    exact hs.truncated (hk hexit)
  have outward : ∀ {signal : Signal} {s : State}, LevelRaise calls p.inLoop.floor signal s →
      signal ≠ .breakOut → signal ≠ .next none → LevelRaise calls p.floor signal s := by
    intro signal s hr hbreak hnext
    obtain ⟨k, hs, -⟩ := hr
    exact levelRaise_of_not_exit hs hbreak hnext
  induction n generalizing s with
  | zero => trivial
  | succ n ih =>
    unfold loop
    refine (hrun htest atTest hs).bind fun e s he => ?_
    split
    · rename_i heq
      rw [heq] at he
      exact meets_of_eq rfl (cutDown he (.inl rfl))
    · rename_i heq
      rw [heq] at he
      exact ih (cutDown he (.inr rfl))
    · rename_i hbreak hnext heq
      rw [heq] at he
      exact meets_pure (outward he (by simpa using hbreak) (by simpa using hnext))
    · rename_i heq
      rw [heq, ht] at he
      refine (supplied_pop he).bind fun v s hs => ?_
      split
      · refine (hrun hbody atBody hs).bind fun e s he => ?_
        split
        · rename_i heq
          rw [heq] at he
          exact meets_of_eq rfl (cutDown he (.inl rfl))
        · rename_i heq
          rw [heq, hb] at he
          exact ih (Level.truncated he (Nat.le_refl _))
        · rename_i heq
          rw [heq] at he
          exact ih (cutDown he (.inr rfl))
        · rename_i hbreak hnext heq
          rw [heq] at he
          exact meets_pure (outward he (by simpa using hbreak) (by simpa using hnext))
      · exact meets_of_eq rfl (hs.truncated (Nat.le_refl _))

/-! ## Instructions -/

/-- How an instruction ends that stands at `p` in code that leads to `q`. -/
def LevelSteps (calls : List Frame) (p q : Point) : Option Signal × Segment → State → Prop
  | (none, after), s =>
    ∃ p', p'.floor = p.floor ∧ Nested levelled p' after.code q ∧ Level calls p'.height s
  | (some signal, _), s => LevelRaise calls p.floor signal s

/-- An instruction that leaves height `h` behind goes on to code checked from `h`. -/
theorem levelSteps_of_leave {after : Segment} {signal : Option Signal}
    (hr : Nested levelled (p.atHeight h) after.code q)
    (hl : LevelLeave calls p.floor h signal s) : LevelSteps calls p q (signal, after) s := by
  cases signal with
  | none => exact ⟨p.atHeight h, rfl, hr, hl⟩
  | some signal => exact hl

/-- An instruction that only acts on the stack goes on with the code behind it. -/
theorem supplied_plain {act : Exec Unit} {after : Segment}
    (hr : Nested levelled (p.atHeight h) after.code q)
    (hact : Supplied act (fun _ => Level calls h) s) :
    Supplied (do act; return (none, after)) (LevelSteps calls p q) s :=
  hact.bind fun _ _ hs => meets_pure ⟨p.atHeight h, rfl, hr, hs⟩

theorem supplied_get {β : Type} {f : State → Exec β} {Q : β → State → Prop}
    (hf : Supplied (f s) Q s) : Supplied (get >>= f) Q s := hf

theorem supplied_popBlock {withBlock : Bool} (hs : Level calls (h + withBlock.toNat) s) :
    Supplied (popBlock withBlock index) (fun _ => Level calls h) s := by
  cases withBlock with
  | false => exact meets_pure hs
  | true =>
    refine (supplied_pop hs).bind fun v s hs => ?_
    split
    · exact meets_pure hs
    · exact supplied_malformed nofun

/-- A message takes its block, its arguments and its receiver, and leaves its answer. -/
theorem supplied_sendStep (hrun : RunsLevel run) {message : String} {argc : UInt64}
    {receiver withBlock : Bool} {scope : ScopeId} {after : Segment} {fuel : Nat}
    (hs : Level calls (h + (receiver.toNat + argc.toNat + withBlock.toNat)) s)
    (hr : Nested levelled (p.atHeight (h + 1)) after.code q) :
    Supplied (step cx run fuel ⟨.send message argc receiver withBlock, scope⟩ after)
      (LevelSteps calls p q) s := by
  rw [← Nat.add_assoc, ← Nat.add_assoc] at hs
  refine (supplied_popBlock hs).bind fun block s hs => ?_
  refine (supplied_popN hs).bind fun args s hs => ?_
  have hsend : ∀ (target : Option Value) {s : State}, Level calls h s →
      Supplied (do
          let result ← send cx run target message args block (after.start - 1)
          return (← deliver result, after))
        (LevelSteps calls p q) s := by
    intro target s hs
    refine (supplied_send hrun hs).bind fun r s hs => ?_
    exact (supplied_deliver hs r).bind fun signal s hl => meets_pure (levelSteps_of_leave hr hl)
  cases receiver with
  | false => exact hsend none hs
  | true => exact (supplied_pop hs).map.bind fun target s ⟨_, _, hs⟩ => hsend target hs

theorem supplied_yieldStep (hrun : RunsLevel run) {argc : UInt64} {scope : ScopeId}
    {after : Segment} {fuel : Nat} (hs : Level calls (h + argc.toNat) s)
    (hr : Nested levelled (p.atHeight (h + 1)) after.code q) :
    Supplied (step cx run fuel ⟨.yield argc, scope⟩ after) (LevelSteps calls p q) s := by
  refine (supplied_popN hs).bind fun args s hs => ?_
  refine (supplied_frame hs).bind fun f s hs => supplied_get ?_
  split
  · trivial
  · rename_i closure hclosure
    obtain ⟨id, -, hid⟩ := Option.bind_eq_some_iff.mp hclosure
    refine (supplied_call hrun hs (hs.procs id closure hid) fun _ _ => rfl).bind fun r s hs => ?_
    exact (supplied_deliver hs r).bind fun signal s hl => meets_pure (levelSteps_of_leave hr hl)

/-- **An instruction without a block** needs what the table of effects says it takes, and comes to
the height that the table gives. -/
theorem supplied_step_plain (hrun : RunsLevel run) (hs : Level calls p.height s)
    {i : Instruction} {after : Segment} {taken left fuel : Nat}
    (ha : levelled.admits p i = true) (he : i.op.effect? = some (taken, left))
    (hh : taken ≤ p.height)
    (hr : Nested levelled (p.atHeight (p.height - taken + left)) after.code q) :
    Supplied (step cx run fuel i after) (LevelSteps calls p q) s := by
  obtain ⟨hexit, hargs⟩ := Bool.and_eq_true_iff.mp ha
  -- `k` operands lie below those that the instruction takes
  obtain ⟨k, hk⟩ : ∃ k, p.height = k + taken := ⟨p.height - taken, by omega⟩
  rw [hk] at hs
  rw [hk, Nat.add_sub_cancel] at hr
  obtain ⟨op, scope⟩ := i
  cases op with
  | pushInt | pushString | pushSymbol | pushNil | pushTrue | pushFalse =>
    cases he
    exact supplied_plain hr (supplied_push hs _)
  | pushSelf | pushArg =>
    cases he
    exact supplied_plain hr ((supplied_frame hs).bind fun f s hs => supplied_push hs _)
  | pop =>
    cases he
    exact supplied_plain hr ((supplied_pop hs).bind fun _ _ hs => meets_pure hs)
  | dup =>
    cases he
    exact supplied_plain hr ((supplied_peek hs).bind fun v _ hs => supplied_push hs v)
  | getLocal name =>
    cases he
    refine supplied_plain hr ((supplied_frame hs).bind fun f s hs => ?_)
    refine (supplied_checkLookup hs).bind fun _ s hs => supplied_get ?_
    exact (supplied_liftLookup hs).bind fun v s hs => supplied_push hs v
  | setLocal name localOnly =>
    cases he
    refine supplied_plain hr ((supplied_pop hs).bind fun v s hs => ?_)
    refine (supplied_frame hs).bind fun f s hs => ?_
    refine (supplied_checkLookup hs).bind fun _ s hs => supplied_get ?_
    refine (supplied_liftLookup hs).bind fun ⟨owner, _⟩ s hs => ?_
    exact meets_of_eq rfl (hs.congr rfl rfl rfl hs.height)
  | getGlobal name =>
    cases he
    exact supplied_plain hr (supplied_get (supplied_push hs _))
  | setGlobal name =>
    cases he
    refine supplied_plain hr ((supplied_pop hs).bind fun v s hs => ?_)
    exact meets_of_eq rfl (hs.congr rfl rfl rfl hs.height)
  | checkArgs expected =>
    cases he
    refine supplied_plain hr ((supplied_frame hs).bind fun f s hs => ?_)
    dsimp only
    split
    · trivial
    · exact meets_pure hs
  | send message argc receiver withBlock =>
    have hargc : argc.toNat < 2 ^ 63 := of_decide_eq_true hargs
    rw [Op.effect?_send hargc] at he
    cases he
    exact supplied_sendStep hrun hs hr
  | yield argc =>
    cases he
    exact supplied_yieldStep hrun hs hr
  | ret =>
    cases he
    exact (supplied_pop hs).bind fun v s hs => meets_pure (levelRaise_of_not_exit hs nofun nofun)
  | breakOut =>
    cases he
    have hfloor : p.floor ≤ p.height := of_decide_eq_true hexit
    exact meets_pure ⟨k, hs, fun _ => by omega⟩
  | next withValue =>
    cases he
    cases withValue with
    | false =>
      have hfloor : p.floor ≤ p.height := of_decide_eq_true hexit
      exact meets_pure ⟨k, hs, fun _ => by simpa [hk] using hfloor⟩
    | true =>
      refine (supplied_pop hs).map.bind fun _ s hpop => ?_
      obtain ⟨v, rfl, hs⟩ := hpop
      exact meets_pure (levelRaise_of_not_exit hs nofun nofun)
  | halt =>
    cases he
    exact meets_pure (levelRaise_of_not_exit hs nofun nofun)
  | setVisibility visibility =>
    cases he
    exact supplied_plain hr (meets_of_eq rfl (hs.congr rfl rfl rfl hs.height))
  | ifTrue | orElse | whileTrue | loopBody | defineMethod | defineBlock | endBlock => cases he

/-- Cutting off a block that is there needs no operand. -/
theorem supplied_cut {seg : Segment} {sought : Terminator} {label : Option BlockLabel} {β : Type}
    {parts : Segment × Segment} {f : Segment × Segment → Exec β} {Q : β → State → Prop}
    (hcut : seg.takeBlock sought label = .ok parts) (hf : Supplied (f parts) Q s) :
    Supplied (cut seg sought label >>= f) Q s :=
  Meets.bind (R := fun r t => r = parts ∧ t = s) (meets_of_eq (cut_eq hcut s) ⟨rfl, rfl⟩)
    fun _ _ ⟨hr, ht⟩ => hr ▸ ht ▸ hf

/-- A conditional takes its condition, and both branches come to one height. -/
theorem supplied_step_cond (hrun : RunsLevel run) (hs : Level calls p.height s) {y n : Point}
    {scope : ScopeId} {j k : Instruction} {yes no rest : List Instruction} {start fuel : Nat}
    (hj : j.op = .orElse) (hk : k.op = .endBlock .cond) (hh : 0 < p.height)
    (hy : Nested levelled (p.atHeight (p.height - 1)) yes y)
    (hn : Nested levelled (p.atHeight (p.height - 1)) no n) (heq : n.height = y.height)
    (hr : Nested levelled (p.atHeight y.height) rest q) :
    Supplied (step cx run fuel ⟨.ifTrue, scope⟩ ⟨start, yes ++ j :: (no ++ k :: rest)⟩)
      (LevelSteps calls p q) s := by
  have hs : Level calls (p.height - 1 + 1) s := by
    rw [Nat.sub_add_cancel hh]
    exact hs
  refine (supplied_pop hs).bind fun v s hs => ?_
  refine supplied_cut (hy.takeBlock_orElse hj start (no ++ k :: rest)) ?_
  refine supplied_cut (hn.takeBlock_ending hk (start + yes.length + 1) rest) ?_
  cases v.isTruthy with
  | true =>
    refine (hrun hy start hs).bind fun e s he => ?_
    exact meets_pure (levelSteps_of_leave hr he)
  | false =>
    refine (hrun hn _ hs).bind fun e s he => ?_
    exact meets_pure (levelSteps_of_leave hr (heq ▸ he))

/-- A loop begins and ends at one height. -/
theorem supplied_step_loop (hrun : RunsLevel run) (hs : Level calls p.height s) {scope : ScopeId}
    {t b : Point} {j k : Instruction} {test body rest : List Instruction} {start fuel : Nat}
    (hj : j.op = .loopBody) (hk : k.op = .endBlock .loop)
    (ht : Nested levelled p.inLoop test t) (htest : t.height = p.height + 1)
    (hb : Nested levelled p.inLoop body b) (hbody : b.height = p.height)
    (hr : Nested levelled (p.atHeight p.height) rest q) :
    Supplied (step cx run fuel ⟨.whileTrue, scope⟩ ⟨start, test ++ j :: (body ++ k :: rest)⟩)
      (LevelSteps calls p q) s := by
  refine supplied_cut (ht.takeBlock_loopBody hj start (body ++ k :: rest)) ?_
  refine supplied_cut (hb.takeBlock_ending hk (start + test.length + 1) rest) (supplied_get ?_)
  dsimp only
  rw [hs.height]
  refine (supplied_loop hrun ht htest hb hbody _ _ _ hs).bind fun signal s hl => ?_
  exact meets_pure (levelSteps_of_leave hr hl)

theorem Level.withMethod (hs : Level calls h s) {name : String} {m : Method}
    (hbody : LevelBody .method m.scope m.body.code) :
    Level calls h { s with methods := s.methods.insert name m } := by
  refine ⟨hs.frames, hs.height, fun other m' hget => ?_, hs.procs⟩
  rw [Table.get?_insert] at hget
  split at hget
  · cases hget
    exact hbody
  · exact hs.methods other m' hget

theorem Level.withProc (hs : Level calls h s) {closure : Closure}
    (hbody : LevelBody .block closure.scope closure.body.code) :
    Level calls h { s with procs := s.procs.push closure } := by
  refine ⟨hs.frames, hs.height, hs.methods, fun id closure' hget => ?_⟩
  rw [Array.getElem?_push] at hget
  split at hget
  · cases hget
    exact hbody
  · exact hs.procs id closure' hget

/-- A method definition keeps its checked body for later calls. -/
theorem supplied_step_method (hs : Level calls p.height s) {b : Point} {name : String}
    {scope home : ScopeId} {k : Instruction} {code rest : List Instruction} {start fuel : Nat}
    (hk : k.op = .endBlock .method) (hb : Nested levelled (.start .method home) code b)
    (hbody : b.height = 1) (hr : Nested levelled (p.atHeight (p.height + 1)) rest q) :
    Supplied (step cx run fuel ⟨.defineMethod name home, scope⟩ ⟨start, code ++ k :: rest⟩)
      (LevelSteps calls p q) s := by
  refine supplied_cut (hb.takeBlock_ending hk start rest) ?_
  let m : Method := ⟨name, ⟨start, code⟩, home, s.visibility = .selfOnly⟩
  have hs : Level calls p.height { s with methods := s.methods.insert name m } :=
    hs.withMethod ⟨b, hb, hbody⟩
  exact ⟨p.atHeight (p.height + 1), rfl, hr, hs.pushed (.sym name)⟩

theorem supplied_step_block (hs : Level calls p.height s) {b : Point} {scope home : ScopeId}
    {k : Instruction} {code rest : List Instruction} {start fuel : Nat}
    (hk : k.op = .endBlock .block) (hb : Nested levelled (.start .block home) code b)
    (hbody : b.height = 1) (hr : Nested levelled (p.behindBlock false) rest q) :
    Supplied (step cx run fuel ⟨.defineBlock home, scope⟩ ⟨start, code ++ k :: rest⟩)
      (LevelSteps calls p q) s := by
  refine supplied_cut (hb.takeBlock_ending hk start rest) ?_
  refine (supplied_frame hs).bind fun f s hs => supplied_get ?_
  let closure : Closure := ⟨⟨start, code⟩, home, f.env, f.self, f.block, f.name⟩
  have hs : Level calls p.height { s with procs := s.procs.push closure } :=
    hs.withProc ⟨b, hb, hbody⟩
  exact ⟨p.behindBlock false, rfl, hr, hs.pushed (.proc s.procs.size)⟩

/-! ## Segments -/

/-- **One instruction of checked code** finds its operands. -/
theorem supplied_step (hrun : RunsLevel run) {i : Instruction} {rest : List Instruction}
    (hn : Nested levelled p (i :: rest) q) (start fuel : Nat) (hs : Level calls p.height s) :
    Supplied (step cx run fuel i ⟨start, rest⟩) (LevelSteps calls p q) s := by
  obtain ⟨op, scope⟩ := i
  cases hn with
  | plain ha he hh hr => exact supplied_step_plain hrun hs ha he hh hr
  | cond ha hi hj hk hh hy hn heq hr =>
    cases hi
    exact supplied_step_cond hrun hs hj hk hh hy hn heq hr
  | loop ha hi hj hk ht htest hb hbody hr =>
    cases hi
    exact supplied_step_loop hrun hs hj hk ht htest hb hbody hr
  | method ha hi hk hb hbody hr =>
    cases hi
    exact supplied_step_method hs hk hb hbody hr
  | block ha hi hk hb hbody hr =>
    cases hi
    exact supplied_step_block hs hk hb hbody hr

theorem supplied_tick (hs : Level calls h s) :
    Supplied (tick cx) (fun _ => Level calls h) s := by
  exact meets_tick (hs.congr rfl rfl rfl hs.height) (fun _ => trivial) fun _ => trivial

/-- **Checked code finds its operands and comes to its height**, for as long as the fuel lasts. -/
theorem runsLevel_exec (cx : Setup) (n : Nat) : RunsLevel (exec cx n) := by
  induction n with
  | zero => exact fun _ _ _ _ _ => trivial
  | succ n ih =>
    intro p q code hn start calls s hs
    cases code with
    | nil =>
      cases hn
      exact meets_pure hs
    | cons i rest =>
      refine (supplied_tick hs).bind fun _ s hs => ?_
      refine (supplied_step ih hn (start + 1) n hs).bind fun r s hr => ?_
      obtain ⟨signal, after⟩ := r
      cases signal with
      | some signal => exact meets_pure hr
      | none =>
        obtain ⟨p', hfloor, hn', hs'⟩ := hr
        rw [← hfloor]
        exact ih hn' after.start hs'

/-! ## Programs -/

theorem supplied_finish {floor n : Nat} {e : Ended} (he : LevelLeave calls floor n e.1 s) :
    Supplied (finish e) (fun _ _ => True) s := by
  obtain ⟨signal, stop⟩ := e
  cases signal with
  | none => trivial
  | some signal =>
    cases signal with
    | ret | halt => trivial
    | breakOut | next => exact supplied_malformed nofun

/-- A program starts with an empty stack and without methods. -/
theorem level_entry (room : Option Nat) (env : Env) :
    Level [topFrame ⟨0⟩] 0 (entryState room env) where
  frames := rfl
  height := rfl
  methods := by
    intro name m h
    cases h
  procs := by
    intro id c h
    cases h

/-- A whole run of checked code misses no operand. -/
theorem supplied_runWithin {P : Program} (hn : Nested levelled (.start .top .root) P.code q)
    (fuel : Nat) (limits : Limits) (room : Option Nat) :
    Supplied (runWithin fuel limits P) (fun _ _ => True) { output := { room } } := by
  unfold runWithin newEnv
  dsimp only
  split
  · rename_i env henv
    have hrun := runsLevel_exec ⟨limits, P.scopes⟩ fuel hn 0 (level_entry room env)
    exact hrun.bind fun e s he => supplied_finish he
  · trivial

/-- The report of a run that ends behind the last instruction. -/
theorem report_of_runsOff {P : Program} {fuel : Nat} {limits : Limits} {room : Option Nat}
    {env : Env} {stop : Nat} (henv : Env.ofScope? P.scopes .root none = some env)
    (hrun : exec ⟨limits, P.scopes⟩ fuel P.segment (entryState room env) = .ok (none, stop) s) :
    reportWithin fuel limits room P = ⟨.ok (.finished s.stack.head?), s.stack.reverse, s.output⟩ := by
  have hok : runWithin fuel limits P { output := { room } } = .ok (.finished s.stack.head?) s := by
    unfold runWithin newEnv
    simp only [henv]
    show EStateM.bind (exec ⟨limits, P.scopes⟩ fuel P.segment) finish (entryState room env) = _
    simp only [EStateM.bind, hrun]
    rfl
  unfold reportWithin
  rw [hok]

/-- **Checked heights hold in every run.** If the check accepts a program for the final height `n`,
and every way out of a loop stands at no less than the height at which the loop began, then no run
of the program misses an operand, and one that runs off the end of the code leaves `n` values. -/
theorem checked_run_keeps_heights (P : Program) {n : Nat} (limits : Limits) (room : Option Nat)
    (fuel : Nat) (hcheck : checkHeights P.code n = .ok ())
    (hargs : ∀ i ∈ P.code, i.op.argCount.toNat < 2 ^ 63) (hexits : ExitsAbove P.code) :
    (∀ e, (reportWithin fuel limits room P).result = .error (.fault (.malformed e)) →
      e.cause ≠ .outOfStack) ∧
    ∀ env stop s, Env.ofScope? P.scopes .root none = some env →
      exec ⟨limits, P.scopes⟩ fuel P.segment (entryState room env) = .ok (none, stop) s →
      (reportWithin fuel limits room P).stack.length = n := by
  obtain ⟨q, hq, hqh⟩ := nested_levelled hcheck hexits hargs
  constructor
  · intro e he
    have hrun := supplied_runWithin hq fuel limits room
    unfold Supplied Meets at hrun
    unfold reportWithin at he
    split at he
    · cases he
    · rename_i heq
      rw [heq] at hrun
      cases he
      exact hrun
  · intro env stop s henv hrun
    have hlevel := runsLevel_exec ⟨limits, P.scopes⟩ fuel hq 0 (level_entry room env)
    unfold Supplied Meets at hlevel
    rw [show exec ⟨limits, P.scopes⟩ fuel ⟨0, P.code⟩ (entryState room env) = _ from hrun] at hlevel
    have hheight : s.stack.length = 0 + q.height := hlevel.height
    rw [report_of_runsOff henv hrun]
    simp only [List.length_reverse]
    omega

/-- Leaves a loop from above the height at which it began. -/
def breakAbove : Program where
  code := [.pushInt 1, .whileTrue, .pushTrue, .loopBody, .pushInt 2, .breakOut, .pop,
    .endBlock .loop].map (⟨·, .root⟩)

theorem breakAbove_keeps_heights :
    checkHeights breakAbove.code 1 = .ok () ∧ ExitsAbove breakAbove.code ∧
      (reportWithin 20 {} none breakAbove).stack.length = 1 := by
  have hcheck : checkHeights breakAbove.code 1 = .ok () := by decide +kernel
  have hexits : ExitsAbove breakAbove.code := by
    show _ = true
    decide +kernel
  have hargs : ∀ i ∈ breakAbove.code, i.op.argCount.toNat < 2 ^ 63 := by decide
  obtain ⟨env, henv⟩ : ∃ env, Env.ofScope? breakAbove.scopes .root none = some env := ⟨_, rfl⟩
  obtain ⟨stop, s, hrun⟩ : ∃ stop s, exec ⟨{}, breakAbove.scopes⟩ 20 breakAbove.segment
      (entryState none env) = .ok (none, stop) s := by
    cases henv
    exact ⟨_, _, rfl⟩
  exact ⟨hcheck, hexits,
    (checked_run_keeps_heights breakAbove {} none 20 hcheck hargs hexits).2 env stop s henv hrun⟩

/-- Takes the operand from before a loop and leaves the loop. The check goes on behind the way out,
where the operand is put back. -/
def breakBelow : Program where
  code := [.pushInt 1, .whileTrue, .pushTrue, .loopBody, .pop, .breakOut, .pushNil,
    .endBlock .loop, .pop].map (⟨·, .root⟩)

/-- **Checks alone do not keep a run from missing an operand.** -/
theorem breakBelow_outOfStack :
    breakBelow.validate = .ok () ∧ checkHeights breakBelow.code 0 = .ok () ∧
      (reportWithin 20 {} none breakBelow).result =
        .error (.fault (.malformed ⟨8, .outOfStack, some .machine⟩)) := by
  refine ⟨?_, ?_, ?_⟩ <;> decide +kernel

end StackCode.Machine
