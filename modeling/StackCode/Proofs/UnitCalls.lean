import StackCode.Proofs.RegionRuns

/-!
# Messages and calls in C

The value that a statement computes is the value that the machine puts on its stack (`Gives`). For a
variable this is what both sides hold; for a block both sides capture it, under the same number; and
a message or a yield makes the same call on both sides, if calls of functions agree with calls of
the machine (`CallsAgree`) one level further down.
-/

namespace StackCode.Native

open CUnit (Operand Rhs Storage Ref FunctionName)
open Machine (State Stop Ended Setup Completion Method Closure ProcId Frame Later CanEnter dispatch
  delivered)

variable {u : CUnit} {t : ScopeTree} {cx : Setup} {k : Nat} {c : Call} {s : State} {m : Memory}
  {v : Value} {values below : List Value} {temps : Temps}

/-! ## Outcomes -/

/-- What a call comes to: it leaves the operands and the temps that there were before it. -/
inductive CallEnds (u : CUnit) (t : ScopeTree) (c : Call) (values : List Value) (temps : Temps) :
    EStateM.Result Stop State Completion → EStateM.Result Interrupt Memory Value → Prop
  | value {v : Value} {s : State} {m : Memory} (h : Runs u t c values s m) (ht : m.temps = temps) :
      CallEnds u t c values temps (.ok (.value v) s) (.ok v m)
  | halt {s : State} {m : Memory} (h : m.output = s.output) :
      CallEnds u t c values temps (.ok .halt s) (.error .exited m)
  | error {s : State} {m : Memory} {e : Stop} {e' : Interrupt} (he : SameError e e')
      (h : m.output = s.output) : CallEnds u t c values temps (.error e s) (.error e' m)

/-- What the computation of a value comes to: the machine has it on its stack, above `below`. -/
inductive Gives (u : CUnit) (t : ScopeTree) (c : Call) (below : List Value) (temps : Temps) :
    EStateM.Result Stop State Ended → EStateM.Result Interrupt Memory Value → Prop
  | value {v : Value} {s : State} {m : Memory} {stop : Nat} (h : Runs u t c (v :: below) s m)
      (ht : m.temps = temps) : Gives u t c below temps (.ok (none, stop) s) (.ok v m)
  | halt {s : State} {m : Memory} {stop : Nat} (h : m.output = s.output) :
      Gives u t c below temps (.ok (some .halt, stop) s) (.error .exited m)
  | error {s : State} {m : Memory} {e : Stop} {e' : Interrupt} (he : SameError e e')
      (h : m.output = s.output) : Gives u t c below temps (.error e s) (.error e' m)

/-- After a call its value is left on the stack, and a halt goes on outwards. -/
theorem rel_delivered {Y : Partial Stop State Completion}
    {x : Option (EStateM.Result Interrupt Memory Value)} {stop : Nat}
    (h : Option.Rel (CallEnds u t c below temps) (Y s) x) :
    Option.Rel (Gives u t c below temps) (Y.bind (delivered cx ⟨stop, []⟩) s) x := by
  unfold Partial.bind
  revert h
  generalize Y s = y
  rintro (h | _)
  · cases h with
    | @value v s m h ht =>
      show Option.Rel _ (Machine.den cx ⟨stop, []⟩ { s with stack := v :: s.stack }) _
      rw [Machine.den_nil]
      exact .some (.value (h.restack ⟨s.steps, by rw [h.stack]; rfl⟩ ⟨m.temps, rfl⟩) ht)
    | halt h => exact .some (.halt h)
    | error he h => exact .some (.error he h)
  · exact .none

/-! ## Output -/

/-- What writing comes to. -/
inductive Writes (u : CUnit) (t : ScopeTree) (c : Call) (values : List Value) (temps : Temps) :
    EStateM.Result Stop State Unit → EStateM.Result Interrupt Memory Unit → Prop
  | ok {s : State} {m : Memory} (h : Runs u t c values s m) (ht : m.temps = temps) :
      Writes u t c values temps (.ok () s) (.ok () m)
  | outputFull {s : State} {m : Memory} (h : m.output = s.output) :
      Writes u t c values temps (.error (.fault .outputFull) s) (.error .outputFull m)

theorem Runs.write (h : Runs u t c values s m) (text : String) :
    Writes u t c values m.temps (Machine.write text s) (Native.write text m) := by
  have hruns : Runs u t c values { s with output := s.output.put text }
      { m with output := m.output.put text } :=
    h.update (h.holds.withOutput text) rfl (.of_eq rfl rfl) h.stack
  unfold Native.write
  rw [Machine.write_eq, ← h.holds.output]
  dsimp only
  split
  · exact .ok (by rw [h.holds.output] at hruns ⊢; exact hruns) rfl
  · exact .outputFull rfl

/-- One text after another, until one does not fit. -/
theorem Runs.writes (h : Runs u t c values s m) (text : Value → String) (args : List Value) :
    Writes u t c values m.temps (args.forM (fun v => Machine.write (text v)) s)
      (args.forM (fun v => Native.write (text v)) m) := by
  suffices hall : ∀ temps, m.temps = temps → Writes u t c values temps
      (args.forM (fun v => Machine.write (text v)) s)
      (args.forM (fun v => Native.write (text v)) m) from hall _ rfl
  intro temps ht
  induction args generalizing s m with
  | nil => exact .ok h ht
  | cons v rest ih =>
    show Writes u t c values temps (EStateM.bind (Machine.write (text v)) _ s)
      (EStateM.bind (Native.write (text v)) _ m)
    have hwrite := ht ▸ h.write (text v)
    unfold EStateM.bind
    revert hwrite
    generalize Machine.write (text v) s = x
    generalize Native.write (text v) m = y
    rintro (⟨h, ht⟩ | h)
    · exact ih h ht
    · exact .outputFull h

/-- A message that writes has the value nil. -/
theorem rel_lim_written {x : Machine.Exec Unit} {y : Compute Unit}
    (h : Writes u t c values temps (x s) (y m)) :
    Option.Rel (CallEnds u t c values temps) (lim (fun _ => do x; return .value .nil) s)
      (lim (fun _ => do y; return .nil) m) := by
  revert h
  generalize hx : x s = rx
  generalize hy : y m = ry
  rintro (⟨h, ht⟩ | ⟨h⟩)
  · rename_i s' m'
    have hleft : lim (fun _ => (do x; return .value .nil : Machine.Exec Completion)) s =
        some (.ok (.value .nil) s') :=
      lim_const (by rw [Machine.bind_of_eq_ok hx]; rfl) (not_ranOut_ok _ _)
    have hright : lim (fun _ => (do y; return .nil : Compute Value)) m = some (.ok .nil m') :=
      lim_const (by rw [bind_eq_of_ok hy]; rfl) (not_ranOut_ok _ _)
    rw [hleft, hright]
    exact .some (.value h ht)
  · rename_i s' m'
    have hleft : lim (fun _ => (do x; return .value .nil : Machine.Exec Completion)) s =
        some (.error (.fault .outputFull) s') :=
      lim_const (by show EStateM.bind x _ s = _; unfold EStateM.bind; rw [hx])
        (mt ranOut_error_iff.mp (by nofun))
    have hright : lim (fun _ => (do y; return .nil : Compute Value)) m =
        some (.error .outputFull m') :=
      lim_const (bind_eq_of_error hy) (mt ranOut_error_iff.mp (by nofun))
    rw [hleft, hright]
    exact .some (.error .outputFull h)

/-! ## Calls -/

/-- The machine is about to make the call that the unit makes. -/
structure Enters (u : CUnit) (t : ScopeTree) (s : State) (inv : Invocation) (body : Segment)
    (scope : ScopeId) (parent : Option EnvId) (isBlock : Bool) (frame : EnvId → Nat → Frame) :
    Prop where
  body : IsFunction u t (if isBlock then .block else .method) scope body.code inv.function
  owned : ∃ owned, t.get? scope = some owned ∧ CanEnter t s owned parent
  parent : inv.parent = parent
  env : ∀ env base, (frame env base).env = env
  base : ∀ env base, (frame env base).base = base
  self : ∀ env base, (frame env base).self = inv.self
  args : ∀ env base, (frame env base).args = inv.args
  block : ∀ env base, (frame env base).block = inv.block
  valid : ∀ id, inv.block = some id → id < s.procs.size

/-- The machine and the unit agree on all calls inside which others may be nested `k` deep. -/
def CallsAgree (u : CUnit) (t : ScopeTree) (cx : Setup) (k : Nat) : Prop :=
  ∀ {c : Call} {values : List Value} {s : State} {m : Memory} {inv : Invocation} {body : Segment}
    {scope : ScopeId} {parent : Option EnvId} {isBlock : Bool} {frame : EnvId → Nat → Frame},
    Runs u t c values s m → cx.limits.callDepth = c.outer.length + k →
    Enters u t s inv body scope parent isBlock frame →
    Option.Rel (CallEnds u t c values m.temps)
      (lim (fun n => Machine.call cx (Machine.exec cx n) body scope parent isBlock frame) s)
      (lim (fun n => invoke u n k inv) m)

theorem SameMethod.enters {method : Method} {entry : Entry} (h : SameMethod u t method entry)
    {block : Option ProcId} (hblock : ∀ id, block = some id → id < s.procs.size) (self : Value)
    (args : List Value) (callSite : Nat) :
    Enters u t s { function := entry.function, self, args, block, parent := none } method.body
      method.scope none false fun env base =>
        { name := method.name, callSite, args, env, block, self, base } where
  body := h.body
  owned := by
    obtain ⟨owned, hget, hh, hb⟩ := Op.opensMethod_iff.mp h.opens
    exact ⟨owned, hget, hh, fun _ hblock => absurd (hb.symm.trans hblock) (by decide)⟩
  parent := rfl
  env := fun _ _ => rfl
  base := fun _ _ => rfl
  self := fun _ _ => rfl
  args := fun _ _ => rfl
  block := fun _ _ => rfl
  valid := hblock

theorem Holds.enters_block (h : Holds u t s m) {id : ProcId} {closure : Closure}
    {captured : Captured} (hid : s.procs[id]? = some closure)
    (hsame : SameBlock u t closure captured) (args : List Value) (callSite : Nat) :
    Enters u t s { function := captured.function, self := captured.self, args,
                   block := captured.block, parent := some captured.env }
      closure.body closure.scope (some closure.env) true fun env base =>
        { name := "block in " ++ closure.home, callSite, args, env, block := closure.block,
          self := closure.self, base } where
  body := hsame.body
  owned := by
    obtain ⟨⟨env, henv, hopens⟩, -⟩ := h.procs id closure hid
    obtain ⟨owned, outer, hget, hh, hb, ho, htarget⟩ := Op.opensBlock_iff.mp hopens
    refine ⟨owned, hget, hh, fun outer' _ ho' => ⟨_, env, rfl, henv, ?_⟩⟩
    rw [ho] at ho'
    cases ho'
    exact htarget
  parent := congrArg some hsame.env
  env := fun _ _ => rfl
  base := fun _ _ => rfl
  self := fun _ _ => hsame.self.symm
  args := fun _ _ => rfl
  block := fun _ _ => hsame.block.symm
  valid := fun block hblock => (h.procs id closure hid).2 block (hsame.block.symm.trans hblock)

/-- The same exception is raised. -/
theorem rel_lim_raise (h : Runs u t c values s m) (e : Exception) :
    Option.Rel (CallEnds u t c values temps)
      (lim (fun _ => (Machine.raise e : Machine.Exec Completion)) s)
      (lim (fun _ => (raise e : Compute Value)) m) := by
  have hleft : lim (fun _ => (Machine.raise e : Machine.Exec Completion)) s =
      some (.error (.fault (.raised ⟨e, []⟩)) s) :=
    lim_const rfl (mt ranOut_error_iff.mp (by nofun))
  have hright : lim (fun _ => (raise e : Compute Value)) m = some (.error (.raised e) m) :=
    lim_const rfl (mt ranOut_error_iff.mp (by nofun))
  rw [hleft, hright]
  exact .some (.error .raised h.holds.output)

theorem lim_defined_bind {α β : Type} (x : α) (f : Nat → α → Compute β) (m : Memory) :
    lim (fun n => defined (some x) >>= f n) m = lim (fun n => f n x) m :=
  rfl

/-- **A message is dispatched the same way on both sides.** -/
theorem rel_lim_send (hcalls : CallsAgree u t cx k) (hd : cx.limits.callDepth = c.outer.length + k)
    (h : Runs u t c values s m) {number : Nat} {message : String}
    (hname : u.symbols[number]? = some message) {block : Option ProcId}
    (hblock : ∀ id, block = some id → id < s.procs.size) (receiver : Option Value)
    (args : List Value) (index : Nat) (target : Value) :
    Option.Rel (CallEnds u t c values m.temps)
      (lim (fun n => dispatch cx (Machine.exec cx n) receiver message args block index target) s)
      (lim (fun n => send u (invoke u n k) target receiver.isSome number args block) m) := by
  unfold send
  simp only [Machine.dispatch_eq]
  rw [hname, lim_defined_bind]
  rcases Builtin.call? target message args with _ | e | v
  · obtain ⟨entry, hentry, hrel⟩ := h.holds.methods number message hname
    dsimp only
    rw [lim_get_bind, lim_get_bind, hentry, lim_defined_bind]
    revert hrel
    generalize s.methods.get? message = method
    rintro (hsame | _)
    · dsimp only
      rw [hsame.selfOnly]
      split
      · exact rel_lim_raise h _
      · exact hcalls h hd (hsame.enters hblock _ _ _)
    · dsimp only
      cases receiver with
      | some v => exact rel_lim_raise h _
      | none =>
        dsimp only [Option.isSome_none]
        split
        · show Option.Rel _ (lim (fun _ =>
            (do Machine.writeLines args; return .value .nil : Machine.Exec Completion)) s) _
          rw [Machine.writeLines_eq]
          split
          · exact rel_lim_written (h.write "\n")
          · exact rel_lim_written (h.writes Value.line args)
        · exact rel_lim_written (h.writes Value.text args)
        · rename_i hputs hprint
          split
          · exact (hputs rfl rfl).elim
          · exact (hprint rfl rfl).elim
          · exact rel_lim_raise h _
  · exact rel_lim_raise h e
  · have hleft : lim (fun _ => (pure (.value v) : Machine.Exec Completion)) s =
        some (.ok (.value v) s) := lim_const rfl (not_ranOut_ok _ _)
    have hright : lim (fun _ => (pure v : Compute Value)) m = some (.ok v m) :=
      lim_const rfl (not_ranOut_ok _ _)
    dsimp only
    rw [hleft, hright]
    exact .some (.value h rfl)

/-! ## Values -/

/-- What the code of a call relies on. -/
structure Agreed (u : CUnit) (t : ScopeTree) (cx : Setup) (k : Nat) (c : Call) : Prop where
  unlimited : cx.Unlimited
  scopes : cx.scopes = t
  proper : t.Proper
  separate : t.Separate
  symbols : u.symbols.Nodup
  calls : CallsAgree u t cx k
  depth : cx.limits.callDepth = c.outer.length + k

theorem Runs.ticked (h : Runs u t c values s m) : Runs u t c values s.ticked m :=
  h.restack ⟨_, by rw [← h.stack]; rfl⟩ ⟨m.temps, rfl⟩

theorem Runs.push (h : Runs u t c values s m) (v : Value) :
    Runs u t c (v :: values) { s with stack := v :: s.stack } m :=
  h.restack ⟨s.steps, by rw [h.stack]; rfl⟩ ⟨m.temps, rfl⟩

theorem Runs.pop (h : Runs u t c (v :: values) s m) (index : Nat) :
    Machine.pop index s = .ok v { s with stack := values ++ c.below } ∧
      Runs u t c values { s with stack := values ++ c.below } m :=
  ⟨Machine.pop_of_stack h.stack (h.base_le values) index, h.restack ⟨s.steps, rfl⟩ ⟨m.temps, rfl⟩⟩

theorem computeDen_load {cx : Context} {place : Storage} (h : m.load? cx.env place = some v) :
    computeDen u k cx (.load place) m = some (.ok v m) := by
  refine lim_eq_some (n := 0) (steady_compute u k cx _) ?_ (not_ranOut_ok v m)
  show defined (m.load? cx.env place) m = _
  rw [h]
  rfl

/-- Reading a variable that is bound in the text. -/
theorem Runs.getLocal (h : Runs u t c values s m) (ht : t.Proper) (hscopes : cx.scopes = t)
    {name : String} {scope : ScopeId} {found : Resolved}
    (hfound : t.resolve? scope name false = some (.ok found))
    (hscope : t.hoistTarget? scope = some c.home) (index : Nat) :
    ∃ v, Machine.loadLocal cx scope name index s = .ok () { s with stack := v :: s.stack } ∧
      m.load? c.frame.env (.local found.depth found.slot name) = some v := by
  obtain ⟨owner, env, own, owned, hrun, hlex, henv, hname, howner, hown, hsame, howned, hslot⟩ :=
    h.lookup ht hfound hscope
  obtain ⟨v, hv⟩ := Option.isSome_iff_exists.mp hname
  have hread : s.envs.read c.frame.env name = .ok v := by
    simp only [EnvStore.read, hrun, bind, Except.bind, pure, Except.pure, henv, Option.bind_some,
      hv, Option.getD_some]
  refine ⟨v, ?_, ?_⟩
  · rw [Machine.loadLocal, Machine.bind_of_eq_ok (Machine.frame_of_frames h.frames index),
      Machine.bind_of_eq_ok (Machine.checkLookup_eq hscopes hfound hrun hlex)]
    show (Machine.liftLookup (s.envs.read c.frame.env name) >>= Machine.push) s = _
    rw [hread]
    rfl
  · simp only [Memory.load?, howner, hown, Option.bind_eq_bind, Option.bind_some]
    rw [hsame.slots owned name found.slot howned hslot]
    exact hv

/-- Changing a variable that is bound in the text. -/
theorem Runs.setLocal (h : Runs u t c (v :: values) s m) (ht : t.Proper) (hsep : t.Separate)
    (hscopes : cx.scopes = t) {name : String} {localOnly : Bool} {scope : ScopeId}
    {found : Resolved} (hfound : t.resolve? scope name localOnly = some (.ok found))
    (hscope : t.hoistTarget? scope = some c.home) (index : Nat) :
    ∃ s' m', Machine.storeLocal cx scope name localOnly index s = .ok () s' ∧
      m.store? c.frame.env v (.local found.depth found.slot name) = some m' ∧
      Runs u t c values s' m' ∧ m'.temps = m.temps := by
  obtain ⟨hpop, h⟩ := h.pop index
  obtain ⟨owner, env, own, owned, hrun, hlex, henv, hname, howner, hown, hsame, howned, hslot⟩ :=
    h.lookup ht hfound hscope
  obtain ⟨old, hold⟩ := Option.isSome_iff_exists.mp hname
  have hthere := (hsame.slots owned name found.slot howned hslot).trans hold
  refine ⟨_, _, ?_, ?_, h.update (h.holds.assign hsep henv hown howned hslot hname v) rfl
    ⟨EnvStore.keeps_assign _ _ _ _, fun _ _ hid => hid⟩ rfl, rfl⟩
  · rw [Machine.storeLocal, Machine.bind_of_eq_ok hpop,
      Machine.bind_of_eq_ok (Machine.frame_of_frames h.frames index),
      Machine.bind_of_eq_ok (Machine.checkLookup_eq hscopes hfound hrun hlex)]
    show (Machine.liftLookup (s.envs.resolve c.frame.env name localOnly) >>= _) _ = _
    rw [show s.envs.resolve c.frame.env name localOnly = _ from hrun]
    rfl
  · simp only [Memory.store?, howner, hown, hthere, Option.bind_eq_bind, Option.bind_some]
    rfl

/-- A block that is captured gets the same number on both sides. -/
theorem Runs.capture (h : Runs u t c values s m) {scope : ScopeId} {body : Segment}
    {function : FunctionName} (hbody : IsFunction u t .block scope body.code function)
    (hopens : Op.opensBlock t c.home scope = true) :
    Runs u t c (.proc s.procs.size :: values)
      { s with procs := s.procs.push (c.frame.capture body scope)
               stack := .proc s.procs.size :: s.stack }
      { m with closures := m.closures.push
                { function, env := c.frame.env, self := c.frame.self, block := c.frame.block } } := by
  obtain ⟨env, henv, hlex⟩ := h.env
  have hlater : Later s { s with procs := s.procs.push (c.frame.capture body scope) } :=
    ⟨(Later.refl s).envs, fun _ _ hid => Machine.getElem?_push_of_some hid⟩
  have hsame : SameBlock u t (c.frame.capture body scope)
      { function, env := c.frame.env, self := c.frame.self, block := c.frame.block } :=
    ⟨rfl, rfl, rfl, hbody⟩
  have hholds := h.holds.withProc hsame henv (by rw [hlex]; exact hopens) h.block
  exact (h.update hholds rfl hlater h.stack).push _

theorem computeDen_closure {cx : Context} (function : FunctionName) :
    computeDen u k cx (.closure function) m = some (.ok (.proc m.closures.size)
      { m with closures := m.closures.push
                { function, env := cx.env, self := cx.self, block := cx.block } }) :=
  lim_eq_some (n := 0) (steady_compute u k cx _) rfl (not_ranOut_ok _ _)

theorem operandOr_eq {o : Option Operand} {v : Option Value} (other : Value)
    (h : Values u c m.temps o.toList v.toList) :
    operandOr u c.context other o m = .ok (v.getD other) m := by
  cases o with
  | none =>
    cases v with
    | none => rfl
    | some v => cases h
  | some o =>
    cases v with
    | none => cases h
    | some v =>
      cases h with
      | cons ho _ => exact operand_eq ho

/-- A message with the values of its operands. -/
theorem computeDen_send {target block : Option Operand} {args : List Operand} {ref : Ref}
    {receiver : Option Value} {id : Option ProcId} {vs : List Value}
    (htarget : Values u c m.temps target.toList receiver.toList)
    (hargs : Values u c m.temps args vs)
    (hblock : Values u c m.temps block.toList (id.map Value.proc).toList) :
    computeDen u k c.context (.send target ref args block) m =
      lim (fun n => send u (invoke u n k) (receiver.getD c.frame.self) receiver.isSome ref.index vs
        id) m := by
  have hsome : target.isSome = receiver.isSome := by
    have hlength := htarget.length_eq
    revert hlength
    cases target <;> cases receiver <;> simp
  have hid : asBlock ((id.map Value.proc).getD .nil) = id := by cases id <;> rfl
  refine lim_eq_of_eq fun n => ?_
  simp only [compute]
  rw [bind_eq_of_ok (operandOr_eq _ htarget), bind_eq_of_ok (operands_eq hargs.mapM),
    bind_eq_of_ok (operandOr_eq _ hblock), hsome, hid]
  rfl

/-- **A message.** -/
theorem Agreed.gives_send (ha : Agreed u t cx k c) {message : String} {argc : UInt64}
    {scope : ScopeId} {target block : Option Operand} {args : List Operand} {ref : Ref}
    {receiver : Option Value} {id : Option ProcId} {vs : List Value}
    (hruns : Runs u t c ((id.map Value.proc).toList ++ (vs.reverse ++ (receiver.toList ++ below)))
      s m)
    (hargc : vs.length = argc.toNat) (href : u.symbols[ref.index]? = some message)
    (htarget : Values u c m.temps target.toList receiver.toList)
    (hargs : Values u c m.temps args vs)
    (hblock : Values u c m.temps block.toList (id.map Value.proc).toList)
    (hvalid : ∀ i, id = some i → i < s.procs.size) (start : Nat) :
    Option.Rel (Gives u t c below m.temps)
      (Machine.den cx ⟨start, [⟨.send message argc receiver.isSome id.isSome, scope⟩]⟩ s)
      (computeDen u k c.context (.send target ref args block) m) := by
  have hstack : s.stack = (id.map Value.proc).toList ++
      (vs.reverse ++ (receiver.toList ++ (below ++ c.below))) := by
    rw [hruns.stack, List.append_assoc, List.append_assoc, List.append_assoc]
  have hruns' : Runs u t c below { s.ticked with stack := below ++ c.below } m :=
    hruns.restack ⟨_, rfl⟩ ⟨m.temps, rfl⟩
  rw [Machine.den_send ha.unlimited hargc hstack (hruns.base_le below) hruns.frames,
    computeDen_send htarget hargs hblock]
  exact rel_delivered (rel_lim_send ha.calls ha.depth hruns' href hvalid receiver vs start _)

/-- **A yield.** -/
theorem Agreed.gives_yield (ha : Agreed u t cx k c) {argc : UInt64} {scope : ScopeId}
    {args : List Operand} {vs : List Value} (hruns : Runs u t c (vs.reverse ++ below) s m)
    (hargc : vs.length = argc.toNat) (hargs : Values u c m.temps args vs) (start : Nat) :
    Option.Rel (Gives u t c below m.temps) (Machine.den cx ⟨start, [⟨.yield argc, scope⟩]⟩ s)
      (computeDen u k c.context (.yield args) m) := by
  have hstack : s.stack = vs.reverse ++ (below ++ c.below) := by
    rw [hruns.stack, List.append_assoc]
  have hruns' : Runs u t c below { s.ticked with stack := below ++ c.below } m :=
    hruns.restack ⟨_, rfl⟩ ⟨m.temps, rfl⟩
  have hcompute : computeDen u k c.context (.yield args) m =
      lim (fun n => yield (invoke u n k) c.frame.block vs) m := by
    refine lim_eq_of_eq fun n => ?_
    simp only [compute]
    exact bind_eq_of_ok (operands_eq hargs.mapM)
  rw [hcompute]
  unfold yield
  cases hblock : c.frame.block with
  | none =>
    have hright : lim (fun _ => (raise .noBlock : Compute Value)) m =
        some (.error (.raised .noBlock) m) := lim_const rfl (mt ranOut_error_iff.mp (by nofun))
    rw [Machine.den_yield_noBlock ha.unlimited hargc hstack (hruns.base_le below) hruns.frames
      hblock, hright]
    exact .some (.error .raised hruns.holds.output)
  | some id =>
    obtain ⟨closure, hclosure⟩ : ∃ closure, s.procs[id]? = some closure :=
      ⟨_, Array.getElem?_eq_getElem (hruns.block id hblock)⟩
    obtain ⟨captured, hcaptured, hsame⟩ := hruns.holds.closures id closure hclosure
    rw [Machine.den_yield ha.unlimited hargc hstack (hruns.base_le below) hruns.frames
      (by rw [hblock]; exact hclosure)]
    refine rel_delivered ?_
    dsimp only
    rw [lim_get_bind, hcaptured, lim_defined_bind]
    exact ha.calls hruns' ha.depth (hruns'.holds.enters_block hclosure hsame vs start)

end StackCode.Native
