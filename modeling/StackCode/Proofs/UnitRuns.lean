import StackCode.Proofs.LoweredRuns
import StackCode.Proofs.TranslatedRuns

/-!
# Units do what their programs do

The function that a body becomes does what the machine does with the body (`rel_body`). Hence calls
agree, by induction on how much deeper they may be nested (`callsAgree`), and so do the top levels:
a unit is executed as its program is run (`unit_agrees_with_run`).
-/

namespace StackCode.Native

open CUnit (Operand Region Draft Translates)
open Machine (State Stop Ended Setup Completion Frame Later CanEnter freshEnv complete)

variable {u : CUnit} {t : ScopeTree} {cx : Setup} {k : Nat} {c : Call} {s : State} {m : Memory}
  {values : List Value}

/-! ## Bodies -/

/-- What a body and its function come to. At its end the body has `n` operands, the last of which is
the result. -/
inductive BodyEnds (u : CUnit) (t : ScopeTree) (c : Call) (kind : BodyKind) (n : Nat)
    (temps : Temps) :
    EStateM.Result Stop State Ended → EStateM.Result Interrupt Memory Value → Prop
  | ends {values : List Value} {s : State} {m : Memory} {stop : Nat} (h : Runs u t c values s m)
      (hn : values.length = n) (ht : m.temps = temps) :
      BodyEnds u t c kind n temps (.ok (none, stop) s) (.ok (values.headD .nil) m)
  | ret {values : List Value} {v : Value} {s : State} {m : Memory} {stop : Nat}
      (hb : kind ≠ .block) (h : Runs u t c values s m) (ht : m.temps = temps) :
      BodyEnds u t c kind n temps (.ok (some (.ret v), stop) s) (.ok v m)
  | finish {values : List Value} {v : Value} {s : State} {m : Memory} {stop : Nat}
      (hb : kind = .block) (h : Runs u t c values s m) (ht : m.temps = temps) :
      BodyEnds u t c kind n temps (.ok (some (.next (some v)), stop) s) (.ok v m)
  | halt {s : State} {m : Memory} {stop : Nat} (h : m.output = s.output) :
      BodyEnds u t c kind n temps (.ok (some .halt, stop) s) (.error .exited m)
  | error {s : State} {m : Memory} {e : Stop} {e' : Interrupt} (he : SameError e e')
      (h : m.output = s.output) : BodyEnds u t c kind n temps (.error e s) (.error e' m)

theorem Values.result {temps : Temps} {r : Region} (h : Values u c temps r.stack values) :
    operand? u c.context temps r.result = some (values.headD .nil) := by
  unfold Region.result
  revert h
  generalize r.stack = os
  rintro (_ | ⟨ho, -⟩)
  · rfl
  · exact ho

/-- **The function that a body becomes does what the body does.** -/
theorem rel_body {kind : BodyKind} {scope : ScopeId} {d d' : Draft} {code : List Instruction}
    {q : Point} {r : Region} (hag : Agreed u t cx k c)
    (h : Translates t (.start kind scope) {} d code q r d') (hu : d'.Within u)
    (hhome : c.home = scope) (hruns : Runs u t c [] s m) (hnone : m.temps = fun _ => none)
    (temps : Temps) (start : Nat) :
    Option.Rel (BodyEnds u t c kind q.height temps) (Machine.den cx ⟨start, code⟩ s)
      ((den u k c.context (r.emit (.ret r.result)).statements m).map (returned temps)) := by
  have hsit : Situated u c ⟨(Point.start kind scope).site, [], fun _ => none⟩ m.temps
      (.start kind scope) {} [] :=
    ⟨CUnit.aligned_start kind scope, .nil, rfl, fun _ _ h => (nomatch h), hhome⟩
  have hrel := (realizes_of_translates h hag hu fun _ h => nomatch h).rel hsit rfl (Nat.le_refl _)
    hruns .nil (fun n _ _ => by rw [hnone]) start
  have hlength := (h.aligned (CUnit.aligned_start kind scope)).length
  rw [Region.statements_emit, den_append]
  unfold Partial.bind
  revert hrel
  generalize Machine.den cx ⟨start, code⟩ s = x
  generalize den u k c.context r.statements m = y
  rintro (hrel | _)
  · cases hrel with
    | next hat =>
      obtain ⟨values, hruns, hvalues, -⟩ := hat.operands
      show Option.Rel _ _ ((den u k c.context [.ret r.result] _).map _)
      rw [den_ret hvalues.result]
      exact .some (.ends (hruns.withTemps temps) (hvalues.length_eq.symm.trans hlength) rfl)
    | leaves h =>
      -- a body is not inside of a loop, so that it is left by a return only
      cases h with
      | breakLoop hin | continueLoop hin => cases hin
      | ret hb h =>
        obtain ⟨⟨more, hruns⟩, -⟩ := h
        exact .some (.ret hb (hruns.withTemps temps) rfl)
      | finish hb h =>
        obtain ⟨⟨more, hruns⟩, -⟩ := h
        exact .some (.finish hb (hruns.withTemps temps) rfl)
      | halt h => exact .some (.halt h)
      | error he h => exact .some (.error he h)
  · exact .none

/-! ## Calls -/

section

variable {inv : Invocation} {body : Segment} {scope : ScopeId} {parent : Option EnvId}
  {isBlock : Bool} {frame : EnvId → Nat → Frame} {owned : Scope}

/-- The call that is made in the state `s`. -/
def Call.callee (s : State) (hbase : ∀ env base, (frame env base).base = base) (home : ScopeId) :
    Call where
  frame := frame s.envs.next s.stack.length
  outer := s.frames
  home := home
  below := s.stack
  entry := s
  base_eq := hbase _ _

/-- The state inside a new call, before any of its code has run. -/
theorem Runs.entered (h : Runs u t c values s m)
    (he : Enters u t s inv body scope parent isBlock frame) (ht : t.Sound)
    (hget : t.get? scope = some owned) (hcan : CanEnter t s owned parent) :
    Runs u t (Call.callee s he.base scope) [] (s.entered (freshEnv owned scope parent) frame)
      (m.entered inv.parent owned.vars.size) where
  holds := by
    rw [he.parent]
    exact h.holds.enter ht hget hcan _
  frames := rfl
  env := by
    refine ⟨freshEnv owned scope parent, ?_, rfl⟩
    show (s.envs.push _).get? (frame s.envs.next s.stack.length).env = _
    rw [he.env, EnvStore.get?_push, if_pos rfl]
  block := fun id hid => he.valid id ((he.block _ _).symm.trans hid)
  later := ⟨EnvStore.keeps_push s.envs _, fun _ _ hid => hid⟩
  stack := rfl

theorem context_callee (h : Runs u t c values s m)
    (he : Enters u t s inv body scope parent isBlock frame) :
    (Call.callee s he.base scope).context = inv.context ⟨m.envs.size⟩ := by
  show Context.mk (frame _ _).self (frame _ _).args (frame _ _).block (frame _ _).env = _
  rw [he.self, he.args, he.block, he.env, h.holds.envs_size]
  rfl

/-- The state after a call, in which the caller goes on. -/
theorem Runs.returned {hbase : ∀ env base, (frame env base).base = base} {more : List Value}
    {s' : State} {m' : Memory} (h : Runs u t c values s m)
    (h' : Runs u t (Call.callee s hbase scope) more s' m') : Runs u t c values s'.leaveCall m' := by
  have hleave : s'.leaveCall = { s' with frames := s.frames, stack := s.stack } := by
    have hstack : s'.stack = more ++ s.stack := h'.stack
    unfold Machine.State.leaveCall
    rw [h'.frames]
    show (State.truncate _ (frame _ _).base) = _
    dsimp only [Machine.State.truncate]
    rw [hbase, hstack, List.length_append, Nat.add_sub_cancel, List.drop_left]
    rfl
  rw [hleave]
  exact h.update (h'.holds.congr rfl rfl rfl rfl rfl rfl ⟨m'.temps, rfl⟩) rfl
    (h'.later.trans (.of_eq rfl rfl)) h.stack

/-- What the body came to, as the end of the call. -/
theorem callEnds_of_bodyEnds {hbase : ∀ env base, (frame env base).base = base}
    (h : Runs u t c values s m) {K : Partial Stop State Ended} {s₁ : State}
    {y : Option (EStateM.Result Interrupt Memory Value)}
    (hrel : Option.Rel (BodyEnds u t (Call.callee s hbase scope)
      (if isBlock then .block else .method) 1 m.temps) (K s₁) y) :
    Option.Rel (CallEnds u t c values m.temps)
      ((K.bind (fun e s => some (complete isBlock e s)) s₁).map Machine.leaveCall) y := by
  unfold Partial.bind
  revert hrel
  generalize K s₁ = x
  rintro (hrel | _)
  · cases hrel with
    | @ends all s' m' stop h' hn ht =>
      obtain ⟨v, rfl⟩ := List.length_eq_one_iff.mp hn
      obtain ⟨hpop, h'⟩ := h'.pop (stop - 1)
      have hcomplete : complete isBlock (none, stop) s' =
          .ok (.value v) { s' with stack := [] ++ (Call.callee s hbase scope).below } := by
        show (Machine.pop (stop - 1) >>= _) s' = _
        rw [Machine.bind_of_eq_ok hpop]
        rfl
      show Option.Rel _ (some (Machine.leaveCall (complete isBlock (none, stop) s'))) _
      rw [hcomplete]
      exact .some (.value (h.returned h') ht)
    | ret hb h' ht =>
      have hblock : isBlock = false := by
        cases isBlock with
        | false => rfl
        | true => exact absurd rfl hb
      simp only [hblock, complete]
      exact .some (.value (h.returned h') ht)
    | finish hb h' ht =>
      have hblock : isBlock = true := by
        cases isBlock with
        | false => cases hb
        | true => rfl
      simp only [hblock, complete]
      exact .some (.value (h.returned h') ht)
    | halt h' => exact .some (.halt (h'.trans (Machine.output_leaveCall _).symm))
    | @error s' m' e e' he h' =>
      have hout := h'.trans (Machine.output_leaveCall s').symm
      cases he with
      | @raised e trace =>
        obtain ⟨trace', htrace⟩ := Machine.leaveCall_raised e trace s'
        show Option.Rel _ (some (Machine.leaveCall (.error (.fault (.raised ⟨e, trace⟩)) s'))) _
        rw [htrace]
        exact .some (.error .raised hout)
      | outputFull =>
        show Option.Rel _ (some (Machine.leaveCall (.error (.fault .outputFull) s'))) _
        rw [Machine.leaveCall_outputFull]
        exact .some (.error .outputFull hout)
  · exact .none

end

theorem Runs.callDepth (h : Runs u t c values s m) : s.callDepth = c.outer.length := by
  unfold Machine.State.callDepth
  rw [h.frames]
  rfl

/-- A call that is refused, on both sides. -/
theorem callsAgree_zero (u : CUnit) (t : ScopeTree) (cx : Setup) : CallsAgree u t cx 0 := by
  intro c values s m inv body scope parent isBlock frame h hd _
  rw [Machine.lim_call_tooDeep (by rw [h.callDepth]; omega), lim_invoke_zero]
  exact .some (.error .raised h.holds.output)

section

variable (hcx : cx.Unlimited) (ht : t.Proper) (hsep : t.Separate) (hscopes : cx.scopes = t)
  (hsymbols : u.symbols.Nodup)

include hcx ht hsep hscopes hsymbols

/-- A call that is entered: its function does what its body does. -/
theorem callsAgree_succ (hcalls : CallsAgree u t cx k) : CallsAgree u t cx (k + 1) := by
  intro c values s m inv body scope parent isBlock frame h hd he
  obtain ⟨owned, hget, hcan⟩ := he.owned
  -- the function that is called is what the body became
  obtain ⟨q, r, d, d', v, owned', htranslates, hs, hu, hget', hfunction⟩ := he.body.made
  obtain rfl := Option.some.inj (hget.symm.trans hget')
  have hresult : r.result = v := by rw [Region.result, hs]; rfl
  have hheight : q.height = 1 := by
    rw [← (htranslates.aligned (CUnit.aligned_start _ scope)).length, hs]
    rfl
  have hdepth : s.callDepth < cx.limits.callDepth := by rw [h.callDepth]; omega
  -- inside of it calls may be nested one less deep
  have hag : Agreed u t cx k (Call.callee s he.base scope) := by
    refine ⟨hcx, hscopes, ht, hsep, hsymbols, hcalls, ?_⟩
    show _ = s.frames.length + k
    rw [hd, h.frames, List.length_cons]
    omega
  have hrel := rel_body hag htranslates hu rfl (h.entered he ht.toSound hget hcan) rfl m.temps
    body.start
  rw [context_callee h he, hresult, hheight] at hrel
  rw [Machine.lim_call hdepth (by rw [hscopes]; exact hget), lim_invoke_succ hfunction]
  exact callEnds_of_bodyEnds h hrel

/-- **Calls agree, however deep they may be nested.** -/
theorem callsAgree (k : Nat) : CallsAgree u t cx k := by
  induction k with
  | zero => exact callsAgree_zero u t cx
  | succ k ih => exact callsAgree_succ hcx ht hsep hscopes hsymbols ih

end

/-! ## Programs -/

/-- The top level of a program. -/
def Call.top (room : Option Nat) (env : Env) : Call where
  frame := Machine.topFrame ⟨0⟩
  outer := []
  home := .root
  below := []
  entry := Machine.entryState room env
  base_eq := rfl

theorem holds_initial (u : CUnit) (t : ScopeTree) (room : Option Nat) :
    Holds u t { output := { room } } (.initial u room) where
  methods := fun k name hk => by
    have hlt := (List.getElem?_eq_some_iff.mp hk).1
    refine ⟨none, ?_, .none⟩
    rw [Memory.initial, Array.getElem?_replicate, if_pos (by omega)]
  globals := fun k name hk => by
    have hlt := (List.getElem?_eq_some_iff.mp hk).1
    rw [Memory.initial, Array.getElem?_replicate, if_pos (by omega)]
    rfl
  visibility := rfl
  output := rfl
  mirrors := fun id env h => nomatch h
  envs_size := rfl
  envs := fun id env h => nomatch h
  closures_size := rfl
  closures := fun id closure h => nomatch h
  procs := fun id closure h => nomatch h

theorem runs_top {owned : Scope} (ht : t.Sound) (hget : t.get? .root = some owned)
    (hhoist : owned.hoist = false) (hblock : owned.block = false) (room : Option Nat) :
    Runs u t (Call.top room (freshEnv owned .root none)) []
      (Machine.entryState room (freshEnv owned .root none))
      ((Memory.initial u room).entered none owned.vars.size) where
  holds := (holds_initial u t room).enter ht hget (Machine.canEnter_method hhoist hblock) _
  frames := rfl
  env := ⟨_, rfl, rfl⟩
  block := fun _ h => nomatch h
  later := .refl _
  stack := rfl

/-- The result of a run is the one that the execution of the unit has. A program whose value is not
used has none at its end, where the unit has nil. -/
def Executed (used : Bool) (result : Except Stop Machine.Exit) : Outcome → Prop
  | .returned v => result = .ok (.finished (some v)) ∨
      used = false ∧ v = .nil ∧ result = .ok (.finished none)
  | .exited => result = .ok .halted
  | .raised e => ∃ trace, result = .error (.fault (.raised ⟨e, trace⟩))
  | .outputFull => result = .error (.fault .outputFull)
  | .undefined => False

/-- The results of a run and of an execution that say the same. -/
def Executes (used : Bool) (r : EStateM.Result Stop State Machine.Exit)
    (r' : EStateM.Result Interrupt Memory Value) : Prop :=
  ∃ o out, outcome? r' = some (o, out) ∧ Executed used (Machine.report r).result o ∧
    (Machine.report r).output = out

/-- What the top level came to, as the end of the run and of the execution. -/
theorem executes_of_bodyEnds {used : Bool} {room : Option Nat} {env : Env} {temps : Temps}
    {K : Partial Stop State Ended} {y : Option (EStateM.Result Interrupt Memory Value)}
    (hrel : Option.Rel (BodyEnds u t (Call.top room env) .top used.toNat temps) (K s) y) :
    Option.Rel (Executes used) (K.bind (fun e s => some (Machine.finish e s)) s) y := by
  unfold Partial.bind
  revert hrel
  generalize K s = x
  rintro (hrel | _)
  · cases hrel with
    | @ends values s' m' stop h hn ht =>
      have hstack : s'.stack = values := h.stack.trans (List.append_nil _)
      refine .some ⟨.returned (values.headD .nil), _, rfl, ?_, h.holds.output.symm⟩
      show Except.ok (Machine.Exit.finished s'.stack.head?) = _ ∨
        _ ∧ _ ∧ Except.ok (Machine.Exit.finished s'.stack.head?) = _
      rw [hstack]
      cases used with
      | false =>
        obtain rfl := List.length_eq_zero_iff.mp hn
        exact .inr ⟨rfl, rfl, rfl⟩
      | true =>
        obtain ⟨v, rfl⟩ := List.length_eq_one_iff.mp hn
        exact .inl rfl
    | ret _ h => exact .some ⟨.returned _, _, rfl, .inl rfl, h.holds.output.symm⟩
    | finish hb => cases hb
    | halt h => exact .some ⟨.exited, _, rfl, rfl, h.symm⟩
    | error he h =>
      cases he with
      | raised => exact .some ⟨.raised _, _, rfl, ⟨_, rfl⟩, h.symm⟩
      | outputFull => exact .some ⟨.outputFull, _, rfl, rfl, h.symm⟩
  · exact .none

variable {P : Program} {used : Bool} {limits : Machine.Limits}

/-- The execution of the unit that a disciplined program becomes, and the run of the program. -/
theorem rel_lim_main (hd : P.Disciplined used.toNat) (hsep : P.scopes.Separate)
    (hsteps : limits.steps = none) (hstack : limits.stack = none) (echo : Bool)
    (room : Option Nat) : ∃ u, CUnit.generate ⟨limits.callDepth, echo⟩ P = .ok u ∧
      Option.Rel (Executes used)
        (lim (fun n => Machine.runWithin n limits P) { output := { room } })
        (lim (fun n => main u n) (.initial u room)) := by
  obtain ⟨r, d, owned, htranslates, hget, hgenerate⟩ :=
    CUnit.exists_generate hd ⟨limits.callDepth, echo⟩
  refine ⟨_, hgenerate, ?_⟩
  let u := d.toUnit ⟨limits.callDepth, echo⟩ (r.toFunction .main .root owned r.result)
  have hu : d.Within u := Draft.within_of_grows htranslates.grows rfl rfl rfl
  have hsymbols : u.symbols.Nodup := htranslates.grows.distinct List.nodup_nil
  have hcx : Setup.Unlimited ⟨limits, P.scopes⟩ := ⟨hsteps, hstack⟩
  have hag : Agreed u P.scopes ⟨limits, P.scopes⟩ limits.callDepth
      (Call.top room (freshEnv owned .root none)) :=
    ⟨hcx, rfl, hd.scopes, hsep, hsymbols,
      callsAgree hcx hd.scopes hsep rfl hsymbols limits.callDepth, (Nat.zero_add _).symm⟩
  obtain ⟨owned', hget', hhoist, hblock⟩ := Op.opensMethod_iff.mp hd.top
  obtain rfl := Option.some.inj (hget.symm.trans hget')
  have hrel := rel_body hag htranslates hu rfl
    (runs_top hd.scopes.toSound hget hhoist hblock room) rfl (fun _ => none) 0
  rw [Machine.lim_runWithin hget]
  show Option.Rel _ _ (lim (fun n => enter u n (invoke u n limits.callDepth) _ topInvocation) _)
  rw [lim_enter]
  exact executes_of_bodyEnds hrel

theorem numbered_of_compile {e : Expr} (hc : e.Countable {}) (h : e.compile used = .ok P) :
    P.scopes.Numbered := by
  obtain ⟨q, hq, rfl⟩ := exists_toProgram_of_compile h
  unfold Expr.toProgram at hq
  obtain ⟨⟨code, scopes⟩, hlower, hq⟩ := bind_eq_ok hq
  cases hq
  obtain ⟨⟨n, hgrows⟩, -⟩ :=
    Expr.emits_lower e (by exact hc) hlower ScopeTree.proper_initial (by decide)
  exact hgrows.numbered ScopeTree.numbered_initial

/-- **A unit is executed as its program is run.** A compiled program always becomes a unit. With the
same limit on the depth of calls, the execution of the unit ends exactly when the run of the program
does, and then both have written the same and come to the same: the same value when it is used or
returned, a halt, the same exception, or the end of the room for output. Nothing that the unit does
is without a meaning in C. -/
theorem unit_agrees_with_run {e : Expr} (hc : e.Countable {}) (h : e.compile used = .ok P)
    (hsmall : P.scopes.size ≤ 2 ^ 32)
    (hslots : ∀ s scope, P.scopes.get? s = some scope → scope.vars.size ≤ 2 ^ 64)
    (limits : Machine.Limits) (hsteps : limits.steps = none) (hstack : limits.stack = none)
    (echo : Bool) (room : Option Nat) : ∃ u, CUnit.generate ⟨limits.callDepth, echo⟩ P = .ok u ∧
      ((∃ n, (Machine.reportWithin n limits room P).result ≠ .error .outOfFuel) ↔
        ∃ n, u.executeWithin n room ≠ none) ∧
      ∀ n k o out, (Machine.reportWithin n limits room P).result ≠ .error .outOfFuel →
        u.executeWithin k room = some (o, out) →
        Executed used (Machine.reportWithin n limits room P).result o ∧
          (Machine.reportWithin n limits room P).output = out := by
  obtain ⟨u, hgenerate, hrel⟩ := rel_lim_main (disciplined_of_compile hc h hsmall)
    ((numbered_of_compile hc h).separate hslots) hsteps hstack echo room
  obtain ⟨hends, hagree⟩ :=
    ends_iff_of_rel_lim (Machine.steady_runWithin limits P) (steady_main u) hrel
  have hran : ∀ n, (Machine.reportWithin n limits room P).result ≠ .error .outOfFuel ↔
      ¬ RanOut (Machine.runWithin n limits P { output := { room } }) := fun n => by
    rw [Machine.reportWithin_eq, Ne, Machine.result_report_eq_iff]
  have hexecuted : ∀ n, u.executeWithin n room ≠ none ↔ ¬ RanOut (main u n (.initial u room)) :=
    fun n => not_congr outcome?_eq_none_iff
  refine ⟨u, hgenerate, ?_, fun n k o out hn hk => ?_⟩
  · simp only [hran, hexecuted]
    exact hends
  · obtain ⟨o', out', ho, hsame, hout⟩ := hagree n k ((hran n).mp hn)
      ((hexecuted k).mp (by rw [hk]; nofun))
    cases ho.symm.trans hk
    rw [Machine.reportWithin_eq]
    exact ⟨hsame, hout⟩

theorem sumDown_unit_agrees_with_run :
    Expr.sumDown.compile true = .ok Machine.sumDownProgram ∧
    (Machine.reportWithin 100 { callDepth := 3 } none Machine.sumDownProgram).result =
      .ok (.finished (some (.int 6))) ∧
    ∃ u n, CUnit.generate { maxCallDepth := 3 } Machine.sumDownProgram = .ok u ∧
      u.executeWithin n none = some (.returned (.int 6), {}) := by
  have hran : (Machine.reportWithin 100 { callDepth := 3 } none Machine.sumDownProgram).result =
      .ok (.finished (some (.int 6))) := by decide +kernel
  have hwritten : (Machine.reportWithin 100 { callDepth := 3 } none
      Machine.sumDownProgram).output = {} := by decide +kernel
  have hslots : ∀ s scope, Machine.sumDownProgram.scopes.get? s = some scope →
      scope.vars.size ≤ 2 ^ 64 := by
    have hall : ∀ scope ∈ Machine.sumDownProgram.scopes.scopes, scope.vars.size ≤ 2 ^ 64 := by
      decide +kernel
    exact fun s scope hs => hall scope (Array.mem_of_getElem? hs)
  obtain ⟨u, hgenerate, hends, hagree⟩ := unit_agrees_with_run Expr.countable_sumDown
    Machine.compile_sumDown (Nat.le_of_lt Machine.size_sumDownProgram) hslots { callDepth := 3 }
    rfl rfl false none
  obtain ⟨n, hn⟩ := hends.mp ⟨100, by rw [hran]; nofun⟩
  obtain ⟨⟨o, out⟩, hsome⟩ := Option.ne_none_iff_exists'.mp hn
  obtain ⟨hsame, hout⟩ := hagree 100 n o out (by rw [hran]; nofun) hsome
  rw [hran] at hsame
  rw [hwritten] at hout
  subst hout
  refine ⟨Machine.compile_sumDown, hran, u, n, hgenerate, ?_⟩
  rw [hsome]
  cases o with
  | returned v =>
    rcases hsame with hsame | ⟨hused, -⟩
    · cases hsame
      rfl
    · cases hused
  | raised e =>
    obtain ⟨trace, hsame⟩ := hsame
    cases hsame
  | exited | outputFull | undefined => cases hsame

end StackCode.Native
