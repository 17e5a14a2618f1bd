import StackCode.Proofs.Calls

/-!
# Disciplined code runs well

A run of disciplined code never stops for a reason that lies in the code. The proof goes by the fuel
of the run: `together_step` says what one instruction does, given what the code inside it does, and
`runsNested_exec` what a whole segment does.
-/

namespace StackCode.Machine

variable {T : ScopeTree} {cx : Setup} {b : Bool} {run run' : Segment → Exec Ended} {c : Calls}
  {h k : Nat} {s : State} {p q : Point} {index : Nat}

/-! ## Variables -/

/-- Where the lookups agree, a check of them changes nothing. -/
theorem checkLookup_eq {scope : ScopeId} {env owner : EnvId} {name : String} {localOnly : Bool}
    {found : Resolved} (hcx : cx.scopes = T)
    (htext : T.resolve? scope name localOnly = some (.ok found))
    (hrun : s.envs.resolve env name localOnly = .ok (owner, found.depth))
    (hlex : s.envs.lexical owner = found.scope) :
    checkLookup cx env scope name localOnly index s = .ok () s := by
  unfold checkLookup
  rw [hcx]
  split
  · rw [htext]
    show (liftLookup (s.envs.resolve env name localOnly) >>= _) s = _
    rw [hrun]
    show (if s.envs.lexical owner ≠ found.scope ∨ found.depth ≠ found.depth then _ else _ :
      Exec Unit) s = _
    rw [if_neg (by simp [hlex])]
    rfl
  · rfl

/-- Reading a variable finds it where the text says. -/
theorem together_getLocal (hT : T.Proper) (hcx : cx.scopes = T) (hs : Running T c h s)
    {name : String} {scope : ScopeId} (hhome : c.home = p.site.scope)
    (ha : (placement T).admits p ⟨.getLocal name, scope⟩ = true) :
    Together (do
        let env := (← frame index).env
        checkLookup cx env scope name false index
        push (← liftLookup ((← get).envs.read env name)))
      (do
        let env := (← frame index).env
        checkLookup (cx.checking b) env scope name false index
        push (← liftLookup ((← get).envs.read env name)))
      (fun _ => Running T c (h + 1)) s := by
  obtain ⟨f, rest, found, owner, hf, htext, hrun, hlex⟩ := hs.lookupsAgree hT hhome ha name false rfl
  obtain ⟨rfl, -⟩ := List.cons.inj (hf.symm.trans hs.frames)
  refine together_of_eq (frame_eq hs) (frame_eq hs) ?_
  refine together_of_eq (checkLookup_eq hcx htext hrun hlex) (checkLookup_eq hcx htext hrun hlex) ?_
  refine together_get ?_
  have hread : ∃ v, s.envs.read c.frame.env name = .ok v := by
    unfold EnvStore.read
    rw [hrun]
    exact ⟨_, rfl⟩
  obtain ⟨v, hv⟩ := hread
  rw [hv]
  exact (ensures_push hs).together

/-- Writing a variable finds its owner where the text says, and takes the value. -/
theorem together_setLocal (hT : T.Proper) (hcx : cx.scopes = T) (hs : Running T c (h + 1) s)
    {name : String} {scope : ScopeId} {localOnly : Bool} (hhome : c.home = p.site.scope)
    (ha : (placement T).admits p ⟨.setLocal name localOnly, scope⟩ = true) :
    Together (do
        let v ← pop index
        let env := (← frame index).env
        checkLookup cx env scope name localOnly index
        let (owner, _) ← liftLookup ((← get).envs.resolve env name localOnly)
        modify fun s => { s with envs := s.envs.assign owner name v })
      (do
        let v ← pop index
        let env := (← frame index).env
        checkLookup (cx.checking b) env scope name localOnly index
        let (owner, _) ← liftLookup ((← get).envs.resolve env name localOnly)
        modify fun s => { s with envs := s.envs.assign owner name v })
      (fun _ => Running T c h) s := by
  refine (ensures_pop hs).andThen fun v s hs => ?_
  obtain ⟨f, rest, found, owner, hf, htext, hrun, hlex⟩ :=
    hs.lookupsAgree hT hhome ha name localOnly rfl
  obtain ⟨rfl, -⟩ := List.cons.inj (hf.symm.trans hs.frames)
  refine together_of_eq (frame_eq hs) (frame_eq hs) ?_
  refine together_of_eq (checkLookup_eq hcx htext hrun hlex) (checkLookup_eq hcx htext hrun hlex) ?_
  refine together_get ?_
  rw [hrun]
  obtain ⟨-, env, hget, hname⟩ := EnvStore.outward_of_resolve hrun
  refine ⟨rfl, ?_⟩
  exact hs.withEnvs (EnvStore.keeps_assign _ _ _ _) (hs.valid.envs.assign hget hname v)

/-! ## Instructions -/

/-- An instruction that only acts on the stack goes on with the code behind it. -/
theorem together_plain {act act' : Exec Unit} {after : Segment} (hhome : c.home = p.site.scope)
    (hr : Nested (placement T) (p.atHeight h) after.code q)
    (hact : Together act act' (fun _ => Running T c h) s) :
    Together (do act; return (none, after)) (do act'; return (none, after)) (Steps T p q c) s :=
  hact.bind fun _ _ hs => together_pure ⟨p.atHeight h, rfl, hr, .of_running hs hhome⟩

/-- The block that goes with a message is there, if it has just been captured. -/
theorem ensures_popBlock {withBlock : Bool} (hs : Running T c (h + withBlock.toNat) s)
    (hblock : withBlock = true → ∃ id rest, s.stack = .proc id :: rest) :
    Ensures (popBlock withBlock index) (fun _ => Running T c h) s := by
  cases withBlock with
  | false => exact meets_pure hs
  | true =>
    obtain ⟨id, rest, hstack⟩ := hblock rfl
    refine meets_of_eq (a := some id) ?_ (hs.popped hstack)
    show (pop index >>= _) s = _
    simp only [bind, EStateM.bind, pop_eq hs hstack]
    rfl

/-- A message takes its block, its arguments and its receiver, and leaves its answer. -/
theorem together_sendStep (hrun : RunsNested T run run') (hcx : cx.scopes = T)
    {message : String} {argc : UInt64} {receiver withBlock : Bool} {scope : ScopeId}
    {after : Segment} {fuel : Nat}
    (hs : Running T c (h + (receiver.toNat + argc.toNat + withBlock.toNat)) s)
    (hblock : withBlock = true → ∃ id rest, s.stack = .proc id :: rest)
    (hhome : c.home = p.site.scope) (hfloor : p.floor ≤ h)
    (hr : Nested (placement T) (p.atHeight (h + 1)) after.code q) :
    Together (step cx run fuel ⟨.send message argc receiver withBlock, scope⟩ after)
      (step (cx.checking b) run' fuel ⟨.send message argc receiver withBlock, scope⟩ after)
      (Steps T p q c) s := by
  rw [← Nat.add_assoc, ← Nat.add_assoc] at hs
  refine (ensures_popBlock hs hblock).andThen fun block s hs => ?_
  refine (ensures_popN hs).andThen fun args s hs => ?_
  have hsend : ∀ (target : Option Value) {s : State}, Running T c h s →
      Together (do
          let result ← send cx run target message args block (after.start - 1)
          return (← deliver result, after))
        (do
          let result ← send (cx.checking b) run' target message args block (after.start - 1)
          return (← deliver result, after))
        (Steps T p q c) s := by
    intro target s hs
    refine (together_send hrun hcx hs).bind fun r s hs => ?_
    refine (ensures_deliver hs hfloor r).andThen fun signal s hl => ?_
    exact together_pure (steps_of_leaves hhome hr hl)
  cases receiver with
  | false => exact hsend none hs
  | true => exact (ensures_pop hs).map.andThen fun target s ⟨_, _, hs⟩ => hsend target hs

theorem together_yieldStep (hrun : RunsNested T run run') (hcx : cx.scopes = T)
    {argc : UInt64} {scope : ScopeId} {after : Segment} {fuel : Nat}
    (hs : Running T c (h + argc.toNat) s) (hhome : c.home = p.site.scope) (hfloor : p.floor ≤ h)
    (hr : Nested (placement T) (p.atHeight (h + 1)) after.code q) :
    Together (step cx run fuel ⟨.yield argc, scope⟩ after)
      (step (cx.checking b) run' fuel ⟨.yield argc, scope⟩ after) (Steps T p q c) s := by
  refine (ensures_popN hs).andThen fun args s hs => ?_
  refine together_of_eq (frame_eq hs) (frame_eq hs) (together_get ?_)
  split
  · exact together_raise _
  · rename_i closure hclosure
    obtain ⟨id, -, hid⟩ := Option.bind_eq_some_iff.mp hclosure
    refine (together_callBlock hrun hcx hs hid).bind fun r s hs => ?_
    refine (ensures_deliver hs hfloor r).andThen fun signal s hl => ?_
    exact together_pure (steps_of_leaves hhome hr hl)

/-- **An instruction without a block** finds its operands and its variable. -/
theorem together_step_plain (hT : T.Proper) (hrun : RunsNested T run run') (hcx : cx.scopes = T)
    (hat : At T p c s) {i : Instruction} {after : Segment} {taken left fuel : Nat}
    (ha : (placement T).admits p i = true) (he : i.op.effect? = some (taken, left))
    (hh : taken ≤ p.height)
    (hr : Nested (placement T) (p.atHeight (p.height - taken + left)) after.code q) :
    Together (step cx run fuel i after) (step (cx.checking b) run' fuel i after)
      (Steps T p q c) s := by
  obtain ⟨hawait, -, hneeds, hfits⟩ := admits_placement_iff.mp ha
  rw [Op.needs_of_effect he] at hneeds
  have hhome := hat.home
  -- `k` operands lie below those that the instruction takes
  obtain ⟨k, hk⟩ : ∃ k, p.height = k + taken := ⟨p.height - taken, by omega⟩
  have hfloor : p.floor ≤ k := by omega
  have hs := hat.running
  rw [hk] at hs
  rw [hk, Nat.add_sub_cancel] at hr
  obtain ⟨op, scope⟩ := i
  cases op with
  | pushInt | pushString | pushSymbol | pushNil | pushTrue | pushFalse =>
    cases he
    exact together_plain hhome hr (ensures_push hs).together
  | pushSelf | pushArg =>
    cases he
    exact together_plain hhome hr
      (together_of_eq (frame_eq hs) (frame_eq hs) (ensures_push hs).together)
  | pop =>
    cases he
    exact together_plain hhome hr ((ensures_pop hs).andThen fun _ _ hs => together_pure hs)
  | dup =>
    cases he
    exact together_plain hhome hr ((ensures_peek hs).andThen fun _ _ hs => (ensures_push hs).together)
  | getLocal name =>
    cases he
    exact together_plain hhome hr (together_getLocal hT hcx hs hhome ha)
  | setLocal name localOnly =>
    cases he
    exact together_plain hhome hr (together_setLocal hT hcx hs hhome ha)
  | getGlobal name =>
    cases he
    exact together_plain hhome hr (together_get (ensures_push hs).together)
  | setGlobal name =>
    cases he
    refine together_plain hhome hr ((ensures_pop hs).andThen fun v s hs => ⟨rfl, ?_⟩)
    exact hs.congr rfl rfl rfl rfl hs.height
  | checkArgs expected =>
    cases he
    refine together_plain hhome hr (together_of_eq (frame_eq hs) (frame_eq hs) ?_)
    by_cases hargs : c.frame.args.length = expected.toNat
    · simp only [hargs, ne_eq, not_true_eq_false, if_false]
      exact together_pure hs
    · simp only [hargs, ne_eq, not_false_eq_true, if_true]
      exact together_raise _
  | send message argc receiver withBlock =>
    have hargc : argc.toNat < 2 ^ 63 := of_decide_eq_true hfits
    rw [Op.effect?_send hargc] at he
    cases he
    exact together_sendStep hrun hcx hs (fun h => hat.block (hawait ▸ h)) hhome hfloor hr
  | yield argc =>
    cases he
    exact together_yieldStep hrun hcx hs hhome hfloor hr
  | ret =>
    cases he
    have hbody : p.site.body ≠ .block := of_decide_eq_true hfits
    exact (ensures_pop hs).andThen fun v s hs => together_pure ⟨hbody, k, hfloor, hs⟩
  | breakOut =>
    cases he
    exact together_pure ⟨hfits, k, hfloor, hs⟩
  | next withValue =>
    cases he
    cases withValue with
    | false => exact together_pure ⟨hfits, k, hfloor, hs⟩
    | true =>
      refine (ensures_pop hs).map.andThen fun _ s hpop => ?_
      obtain ⟨v, rfl, hs⟩ := hpop
      have hsite : p.site.loop.isNone ∧ p.site.body = .block := by simpa [Op.fits] using hfits
      exact together_pure ⟨⟨Option.isNone_iff_eq_none.mp hsite.1, hsite.2⟩, k, hfloor, hs⟩
  | halt =>
    cases he
    exact together_pure ⟨trivial, k, hfloor, hs⟩
  | setVisibility visibility =>
    cases he
    exact together_plain hhome hr ⟨rfl, hs.congr rfl rfl rfl rfl hs.height⟩
  | ifTrue | orElse | whileTrue | loopBody | defineMethod | defineBlock | endBlock => cases he

/-- A block that is there is cut off. -/
theorem cut_eq {seg : Segment} {sought : Terminator} {label : Option BlockLabel}
    {parts : Segment × Segment} (hcut : seg.takeBlock sought label = .ok parts) (s : State) :
    cut seg sought label s = .ok parts s := by
  unfold cut
  rw [hcut]
  rfl

/-- The end of a branch is the end of the conditional. -/
theorem steps_of_ends {after : Segment} {branch r : Point} {e : Ended}
    (hhome : c.home = p.site.scope) (hsite : branch.site = p.site)
    (hr : Nested (placement T) (p.atHeight r.height) after.code q) (he : Ends T branch r c e s) :
    Steps T p q c (e.1, after) s := by
  obtain ⟨signal, stop⟩ := e
  cases signal with
  | none => exact ⟨p.atHeight r.height, rfl, hr, .of_running he.running hhome⟩
  | some signal =>
    rw [Ends, hsite] at he
    exact he

/-- Both branches of a conditional come to the height behind it. -/
theorem together_step_cond (hrun : RunsNested T run run') (hat : At T p c s) {y n : Point}
    {scope : ScopeId} {j k : Instruction} {yes no rest : List Instruction} {start fuel : Nat}
    (hj : j.op = .orElse) (hk : k.op = .endBlock .cond) (hh : 0 < p.height)
    (hy : Nested (placement T) (p.atHeight (p.height - 1)) yes y)
    (hn : Nested (placement T) (p.atHeight (p.height - 1)) no n) (heq : n.height = y.height)
    (hr : Nested (placement T) (p.atHeight y.height) rest q) :
    Together (step cx run fuel ⟨.ifTrue, scope⟩ ⟨start, yes ++ j :: (no ++ k :: rest)⟩)
      (step (cx.checking b) run' fuel ⟨.ifTrue, scope⟩ ⟨start, yes ++ j :: (no ++ k :: rest)⟩)
      (Steps T p q c) s := by
  have hs : Running T c (p.height - 1 + 1) s := by
    rw [Nat.sub_add_cancel hh]
    exact hat.running
  refine (ensures_pop hs).andThen fun v s hs => ?_
  have hcut := cut_eq (hy.takeBlock_orElse hj start (no ++ k :: rest)) s
  have hcut' := cut_eq (hn.takeBlock_ending hk (start + yes.length + 1) rest) s
  refine together_of_eq hcut hcut (together_of_eq hcut' hcut' ?_)
  have hbranch : At T (p.atHeight (p.height - 1)) c s := .of_running hs hat.home
  cases v.isTruthy with
  | true =>
    refine (hrun hy start hbranch).bind fun e s he => ?_
    exact together_pure (steps_of_ends hat.home rfl hr he)
  | false =>
    refine (hrun hn _ hbranch).bind fun e s he => ?_
    exact together_pure (steps_of_ends hat.home rfl (heq ▸ hr) he)

/-- A loop stands at the height at which its test and its body begin. -/
theorem together_step_loop (hrun : RunsNested T run run') (hat : At T p c s)
    {scope : ScopeId} (ha : (placement T).admits p ⟨.whileTrue, scope⟩ = true) {t d : Point}
    {j k : Instruction} {test body rest : List Instruction} {start fuel : Nat}
    (hj : j.op = .loopBody) (hk : k.op = .endBlock .loop)
    (ht : Nested (placement T) p.inLoop test t) (htest : t.height = p.height + 1)
    (hd : Nested (placement T) p.inLoop body d) (hbody : d.height = p.height)
    (hr : Nested (placement T) (p.atHeight p.height) rest q) :
    Together (step cx run fuel ⟨.whileTrue, scope⟩ ⟨start, test ++ j :: (body ++ k :: rest)⟩)
      (step (cx.checking b) run' fuel ⟨.whileTrue, scope⟩ ⟨start, test ++ j :: (body ++ k :: rest)⟩)
      (Steps T p q c) s := by
  obtain ⟨-, -, hfloor, -⟩ := admits_placement_iff.mp ha
  have hcut := cut_eq (ht.takeBlock_loopBody hj start (body ++ k :: rest)) s
  have hcut' := cut_eq (hd.takeBlock_ending hk (start + test.length + 1) rest) s
  refine together_of_eq hcut hcut (together_of_eq hcut' hcut' (together_get ?_))
  have hs := hat.running
  dsimp only
  rw [hs.height]
  refine (together_loop hrun hat.home hfloor ht htest hd hbody _ _ _ hs).bind fun signal s hl => ?_
  exact together_pure (steps_of_leaves hat.home hr hl)

/-- A method with a disciplined body is added to the others. -/
theorem Running.withMethod (hs : Running T c h s) {name : String} {m : Method}
    (hopens : Op.opensMethod T m.scope = true) (hbody : IsBody T .method m.scope m.body.code) :
    Running T c h { s with methods := s.methods.insert name m } := by
  refine ⟨⟨hs.valid.envs, fun other m' hget => ?_, hs.valid.procs⟩, hs.frames, hs.active, hs.height⟩
  rw [Table.get?_insert] at hget
  split at hget
  · cases hget
    exact ⟨hopens, hbody⟩
  · exact hs.valid.methods other m' hget

/-- A block captured in the current call may be called later on. -/
theorem Running.withProc (hs : Running T c h s) {closure : Closure}
    (henv : closure.env = c.frame.env) (hopens : Op.opensBlock T c.home closure.scope = true)
    (hbody : IsBody T .block closure.scope closure.body.code) :
    Running T c h { s with procs := s.procs.push closure } := by
  refine ⟨⟨hs.valid.envs, hs.valid.methods, fun id closure' hget => ?_⟩, hs.frames, hs.active,
    hs.height⟩
  rw [Array.getElem?_push] at hget
  split at hget
  · cases hget
    obtain ⟨env, hget, hlex⟩ := hs.env
    exact ⟨⟨env, by rw [henv]; exact hget, by rw [hlex]; exact hopens⟩, hbody⟩
  · exact hs.valid.procs id closure' hget

theorem together_step_method (hat : At T p c s) {d : Point} {name : String} {scope body : ScopeId}
    {k : Instruction} {code rest : List Instruction} {start fuel : Nat}
    (ha : (placement T).admits p ⟨.defineMethod name body, scope⟩ = true)
    (hk : k.op = .endBlock .method) (hd : Nested (placement T) (.start .method body) code d)
    (hbody : d.height = 1) (hr : Nested (placement T) (p.atHeight (p.height + 1)) rest q) :
    Together (step cx run fuel ⟨.defineMethod name body, scope⟩ ⟨start, code ++ k :: rest⟩)
      (step (cx.checking b) run' fuel ⟨.defineMethod name body, scope⟩ ⟨start, code ++ k :: rest⟩)
      (Steps T p q c) s := by
  obtain ⟨-, -, -, hopens⟩ := admits_placement_iff.mp ha
  have hcut := cut_eq (hd.takeBlock_ending hk start rest) s
  refine together_of_eq hcut hcut (together_modify ?_)
  let m : Method := ⟨name, ⟨start, code⟩, body, s.visibility = .selfOnly⟩
  have hs : Running T c p.height { s with methods := s.methods.insert name m } :=
    hat.running.withMethod hopens ⟨d, hd, hbody⟩
  refine (ensures_push hs).andThen fun _ s hs => ?_
  exact together_pure ⟨p.atHeight (p.height + 1), rfl, hr, .of_running hs hat.home⟩

theorem together_step_block (hat : At T p c s) {d : Point} {scope body : ScopeId}
    {k : Instruction} {code rest : List Instruction} {start fuel : Nat}
    (ha : (placement T).admits p ⟨.defineBlock body, scope⟩ = true)
    (hk : k.op = .endBlock .block) (hd : Nested (placement T) (.start .block body) code d)
    (hbody : d.height = 1) (hr : Nested (placement T) (p.behindBlock true) rest q) :
    Together (step cx run fuel ⟨.defineBlock body, scope⟩ ⟨start, code ++ k :: rest⟩)
      (step (cx.checking b) run' fuel ⟨.defineBlock body, scope⟩ ⟨start, code ++ k :: rest⟩)
      (Steps T p q c) s := by
  obtain ⟨-, -, -, hopens⟩ := admits_placement_iff.mp ha
  have hcut := cut_eq (hd.takeBlock_ending hk start rest) s
  have hs := hat.running
  refine together_of_eq hcut hcut (together_of_eq (frame_eq hs) (frame_eq hs) (together_get ?_))
  refine together_modify ⟨rfl, ?_⟩
  have hopens : Op.opensBlock T c.home body = true := by
    rw [hat.home]
    exact hopens
  let closure : Closure :=
    ⟨⟨start, code⟩, body, c.frame.env, c.frame.self, c.frame.block, c.frame.name⟩
  have hs : Running T c p.height { s with procs := s.procs.push closure } :=
    hs.withProc rfl hopens ⟨d, hd, hbody⟩
  exact ⟨p.behindBlock true, rfl, hr, hs.pushed (.proc s.procs.size), hat.home,
    fun _ => ⟨_, _, rfl⟩⟩

/-! ## Segments and runs -/

/-- **One instruction of disciplined code.** -/
theorem together_step (hT : T.Proper) (hrun : RunsNested T run run') (hcx : cx.scopes = T)
    {i : Instruction} {rest : List Instruction} (hn : Nested (placement T) p (i :: rest) q)
    (start fuel : Nat) (hat : At T p c s) :
    (placement T).admits p i = true ∧
    Together (step cx run fuel i ⟨start, rest⟩) (step (cx.checking b) run' fuel i ⟨start, rest⟩)
      (Steps T p q c) s := by
  obtain ⟨op, scope⟩ := i
  cases hn with
  | plain ha he hh hr => exact ⟨ha, together_step_plain hT hrun hcx hat ha he hh hr⟩
  | cond ha hi hj hk hh hy hn heq hr =>
    cases hi
    exact ⟨ha, together_step_cond hrun hat hj hk hh hy hn heq hr⟩
  | loop ha hi hj hk ht htest hb hbody hr =>
    cases hi
    exact ⟨ha, together_step_loop hrun hat ha hj hk ht htest hb hbody hr⟩
  | method ha hi hk hb hbody hr =>
    cases hi
    exact ⟨ha, together_step_method hat ha hk hb hbody hr⟩
  | block ha hi hk hb hbody hr =>
    cases hi
    exact ⟨ha, together_step_block hat ha hk hb hbody hr⟩

/-- An instruction is counted, or a limit stops the run. -/
theorem tick_cases (cx : Setup) (s : State) :
    tick cx s = .ok () { s with steps := s.steps + 1 } ∨
    (∃ max, tick cx s = .error (.fault (.stepLimit max)) { s with steps := s.steps + 1 }) ∨
    ∃ max, tick cx s = .error (.fault (.stackLimit max)) { s with steps := s.steps + 1 } := by
  let s' : State := { s with steps := s.steps + 1 }
  let checkStack : Exec Unit := cx.limits.stack.elim (pure ()) fun max =>
    if max < s'.stack.length then fail (.stackLimit max) else pure ()
  have hstack : checkStack s' = .ok () s' ∨
      ∃ max, checkStack s' = .error (.fault (.stackLimit max)) s' := by
    unfold checkStack
    cases cx.limits.stack with
    | none => exact Or.inl rfl
    | some max =>
      by_cases h : max < s'.stack.length
      · exact Or.inr ⟨max, by simp only [Option.elim, h, if_true]; rfl⟩
      · exact Or.inl (by simp only [Option.elim, h, if_false]; rfl)
  have htick : tick cx s = (cx.limits.steps.elim checkStack fun max =>
      if max < s'.steps then (fail (.stepLimit max) : Exec Unit) >>= fun _ => checkStack
      else checkStack) s' := by
    unfold checkStack
    cases hsteps : cx.limits.steps <;> cases hstack : cx.limits.stack <;>
      simp only [tick, hsteps, hstack] <;> rfl
  rw [htick]
  cases cx.limits.steps with
  | none => exact hstack.imp_right Or.inr
  | some max =>
    by_cases h : max < s'.steps
    · exact Or.inr (Or.inl ⟨max, by simp only [Option.elim, h, if_true]; rfl⟩)
    · simp only [Option.elim, h, if_false]
      exact hstack.imp_right Or.inr

/-- An instruction is counted, and may be the first beyond a limit. -/
theorem meets_tick {E : Stop → Prop} {Q : Unit → State → Prop}
    (hq : Q () { s with steps := s.steps + 1 }) (hsteps : ∀ max, E (.fault (.stepLimit max)))
    (hstack : ∀ max, E (.fault (.stackLimit max))) : Meets E (tick cx) Q s := by
  unfold Meets
  rcases tick_cases cx s with h | ⟨max, h⟩ | ⟨max, h⟩
  · rw [h]
    exact hq
  · rw [h]
    exact hsteps max
  · rw [h]
    exact hstack max

theorem ensures_tick (hat : At T p c s) : Ensures (tick cx) (fun _ => At T p c) s := by
  have hat' : At T p c { s with steps := s.steps + 1 } :=
    ⟨hat.running.congr rfl rfl rfl rfl hat.running.height, hat.home, hat.block⟩
  exact meets_tick hat' (fun _ => trivial) fun _ => trivial

/-- A watch that does nothing here makes no difference. -/
theorem together_watch {α : Type} {m m' : Exec α} {Q : α → State → Prop} {watch : Exec Unit}
    (hw : watch s = .ok () s) (hm : Together m m' Q s) :
    Together m (watch >>= fun _ => m') Q s := by
  refine ⟨?_, hm.2⟩
  rw [← hm.1]
  show EStateM.bind watch (fun _ => m') s = m' s
  simp only [EStateM.bind, hw]

/-- **Segments of disciplined code run well**, for as long as the fuel lasts, and nothing shows
whether they are watched or checked. -/
theorem runsNested_exec (hT : T.Proper) (hcx : cx.scopes = T) {watch : Instruction → Exec Unit}
    (hquiet : Quiet T watch) (b : Bool) (n : Nat) :
    RunsNested T (exec cx n)
      (execBy (.watched watch (cx.checking b)) (cx.checking b) n) := by
  induction n with
  | zero => exact fun _ _ _ _ _ => ⟨rfl, trivial⟩
  | succ n ih =>
    intro p q code hn start c s hat
    cases code with
    | nil =>
      cases hn
      exact together_pure hat
    | cons i rest =>
      unfold exec execBy
      simp only [Hooks.watched, bind_assoc, ← step_eq_stepBy]
      refine (ensures_tick hat).andThen fun _ s hat => ?_
      obtain ⟨ha, hstep⟩ := together_step (b := b) hT ih hcx hn (start + 1) n hat
      have hw := hquiet i s (hat.running.lookupsAgree hT hat.home ha)
      refine together_watch hw (hstep.bind fun r s hr => ?_)
      obtain ⟨signal, after⟩ := r
      cases signal with
      | some signal => exact together_pure hr
      | none =>
        obtain ⟨p', hsite, hn', hat'⟩ := hr
        refine (ih hn' after.start hat').mono fun e s he => ?_
        obtain ⟨signal, stop⟩ := e
        cases signal with
        | none => exact he
        | some signal =>
          rw [Ends, hsite] at he
          exact he

end StackCode.Machine
