import StackCode.Proofs.Ensures

/-!
# What runs keep because their parts do

Facts about runs are facts about families of computations: about one run of a program under
different limits, about its runs with more and more fuel, or about its runs with different hooks. If
sequencing keeps such a fact, and the operations of which instructions are made keep it
(`Congruence`), and a call and a loop keep it when the code inside them does (`Upholds`), then so
does every instruction (`Upholds.step`), and with the same fuel for all of the family every segment
(`Congruence.execBy`).

Some facts depend on the code that runs: that it is a part of some program, say, or names scopes that
there are. The `Terms` of a run say what holds of its code, and so of the methods and blocks that the
code is kept in for later.
-/

namespace StackCode

/-! ## Built-in methods make no calls -/

namespace Builtin

variable {args : List Value}

/-- Unpacking an argument is no call. -/
theorem withOne_ne_stackTooDeep {k : Value → Except Exception Value}
    (hk : ∀ v, k v ≠ .error .stackTooDeep) : withOne args k ≠ .error .stackTooDeep := by
  unfold withOne
  split
  · exact hk _
  · simp

theorem withNone_ne_stackTooDeep {v : Value} : withNone args v ≠ .error .stackTooDeep := by
  unfold withNone
  split <;> simp

theorem ofInt?_ne_stackTooDeep (a : Int64) (message : String) :
    ofInt? a message args ≠ some (.error .stackTooDeep) := by
  unfold ofInt?
  cases IntOp.ofName? message with
  | none => simp
  | some op =>
    show (if op.isArithmetic || op.isComparison then _ else _) ≠ _
    split
    · refine fun h => withOne_ne_stackTooDeep (fun v => ?_) (Option.some.inj h)
      cases v with
      | int b => cases hv : op.eval? a b <;> simp [hv]
      | _ => cases op.isArithmetic <;> simp
    · simp

theorem ofStr?_ne_stackTooDeep (s message : String) :
    ofStr? s message args ≠ some (.error .stackTooDeep) := by
  unfold ofStr?
  split
  · refine fun h => withOne_ne_stackTooDeep (fun v => ?_) (Option.some.inj h)
    cases v <;> simp
  · exact fun h => withNone_ne_stackTooDeep (Option.some.inj h)
  · exact fun h => withNone_ne_stackTooDeep (Option.some.inj h)
  · simp

theorem ofAny?_ne_stackTooDeep (receiver : Value) (message : String) :
    ofAny? receiver message args ≠ some (.error .stackTooDeep) := by
  unfold ofAny?
  split
  · exact fun h => withOne_ne_stackTooDeep (fun v => by simp) (Option.some.inj h)
  · exact fun h => withOne_ne_stackTooDeep (fun v => by simp) (Option.some.inj h)
  · exact fun h => withNone_ne_stackTooDeep (Option.some.inj h)
  · exact fun h => withNone_ne_stackTooDeep (Option.some.inj h)
  · exact fun h => withNone_ne_stackTooDeep (Option.some.inj h)
  · simp

/-- **No built-in method goes too deep**, whatever its receiver and its arguments are. -/
theorem call?_ne_stackTooDeep (receiver : Value) (message : String) (args : List Value) :
    call? receiver message args ≠ some (.error .stackTooDeep) := by
  have hclass : ofClass? receiver message args ≠ some (.error .stackTooDeep) := by
    cases receiver with
    | int a => exact ofInt?_ne_stackTooDeep a message
    | str s => exact ofStr?_ne_stackTooDeep s message
    | _ => simp [ofClass?]
  intro h
  rcases Option.or_eq_some_iff.mp h with h | ⟨-, h⟩
  · exact hclass h
  · exact ofAny?_ne_stackTooDeep receiver message h

end Builtin

namespace Machine

/-! ## What the calls of a run share -/

/-- The part of a state that no call owns, apart from what is written and counted. -/
structure Shared where
  methods : Table Method
  globals : Table Value
  visibility : Visibility
  envs : EnvStore
  procs : Array Closure

/-- The part of the state that no call owns. -/
def State.shared (s : State) : Shared := ⟨s.methods, s.globals, s.visibility, s.envs, s.procs⟩

/-- The state with another part that no call owns. -/
def State.withShared (s : State) (h : Shared) : State :=
  { s with methods := h.methods, globals := h.globals, visibility := h.visibility, envs := h.envs,
           procs := h.procs }

/-! ## Operands of the current call -/

/-- The current call has no operand, or a last one. -/
theorem State.operand_cases (s : State) : s.stack.length ≤ s.base ∨
    ∃ v below, s.stack = v :: below ∧ s.base ≤ below.length := by
  cases hs : s.stack with
  | nil => exact .inl (Nat.zero_le _)
  | cons v below =>
    by_cases hbase : s.base ≤ below.length
    · exact .inr ⟨v, below, rfl, hbase⟩
    · exact .inl (Nat.lt_of_not_le hbase)

section

variable {s : State} (h : s.stack.length ≤ s.base) (index : Nat)

include h

/-- The operands of the caller cannot be popped. -/
theorem pop_of_length_le : pop index s = malformed index .outOfStack s := by
  unfold pop
  split
  · exact if_neg (Nat.not_lt.mpr h)
  · rfl

theorem peek_of_length_le : peek index s = malformed index .outOfStack s := by
  unfold peek
  split
  · exact if_neg (Nat.not_lt.mpr h)
  · rfl

end

/-- A look takes nothing off the stack. -/
theorem peek_of_stack {s : State} {v : Value} {below : List Value} (hs : s.stack = v :: below)
    (hbase : s.base ≤ below.length) (index : Nat) : peek index s = .ok v s := by
  unfold peek
  rw [hs]
  exact if_pos (Nat.lt_succ_of_le hbase)

/-- The current call is the innermost one. -/
theorem frame_eq_match (index : Nat) (s : State) : frame index s = match s.frames with
    | [] => malformed index .noFrame s
    | f :: _ => .ok f s := by
  obtain ⟨stack, _ | ⟨f, outer⟩, methods, globals, visibility, envs, procs, output, steps⟩ := s <;>
    rfl

/-! ## Operations on the stack -/

/-- A fault of an instruction by itself: no scope is missing, no call is refused, and if it is an
exception, it has left no call yet. -/
def Fault.Ordinary : Fault → Prop
  | .missingScope _ => False
  | .raised e => e.trace = [] ∧ e.exception ≠ .stackTooDeep
  | _ => True

/-- The computation changes nothing but the operands, or stops with an ordinary fault where it
began. -/
def OnStack {α : Type} (m : Exec α) : Prop := ∀ s,
  (∃ a stack, m s = .ok a { s with stack }) ∨ ∃ f : Fault, m s = .error (.fault f) s ∧ f.Ordinary

theorem onStack_pure {α : Type} (a : α) : OnStack (pure a : Exec α) := fun s => .inl ⟨a, s.stack, rfl⟩

theorem onStack_fail {α : Type} {f : Fault} (hf : f.Ordinary) : OnStack (fail f : Exec α) :=
  fun _ => .inr ⟨f, rfl, hf⟩

theorem onStack_push (v : Value) : OnStack (push v) := fun s => .inl ⟨(), v :: s.stack, rfl⟩

theorem onStack_truncate (height : Nat) : OnStack (truncate height) := fun _ => .inl ⟨(), _, rfl⟩

theorem onStack_pop (index : Nat) : OnStack (pop index) := by
  intro s
  rcases s.operand_cases with hlow | ⟨v, below, hs, hbase⟩
  · exact .inr ⟨_, pop_of_length_le hlow index, trivial⟩
  · exact .inl ⟨v, below, pop_of_stack hs hbase index⟩

theorem onStack_peek (index : Nat) : OnStack (peek index) := by
  intro s
  rcases s.operand_cases with hlow | ⟨v, below, hs, hbase⟩
  · exact .inr ⟨_, peek_of_length_le hlow index, trivial⟩
  · exact .inl ⟨v, s.stack, peek_of_stack hs hbase index⟩

/-- Taking several operands is one operation: it takes all of them or none. -/
theorem onStack_popN (n : UInt64) (index : Nat) : OnStack (popN n index) := by
  intro s
  unfold popN
  split
  · refine .inr ⟨_, rfl, ?_⟩
    unfold shortage
    split <;> trivial
  · exact .inl ⟨_, _, rfl⟩

theorem onStack_frame (index : Nat) : OnStack (frame index) := by
  intro s
  rw [frame_eq_match]
  split
  · exact .inr ⟨_, rfl, trivial⟩
  · exact .inl ⟨_, s.stack, rfl⟩

/-! ## The code of a run -/

/-- What holds of the code of a run, of the methods and blocks that it is kept in, and of the calls
that it runs in. Code that comes from such code is such code. -/
structure Terms where
  code : Segment → Prop
  /-- A method, under its name. -/
  method : String → Method → Prop
  closure : Closure → Prop
  frame : Frame → Prop
  tail : ∀ {index : Nat} {i : Instruction} {rest : List Instruction}, code ⟨index, i :: rest⟩ →
    code ⟨index + 1, rest⟩
  parts : ∀ {seg body after : Segment} {sought : Terminator} {label : Option BlockLabel},
    code seg → seg.takeBlock sought label = .ok (body, after) → code body ∧ code after
  define : ∀ {index : Nat} {i : Instruction} {rest : List Instruction} {name : String}
    {scope : ScopeId} {body : Segment}, code ⟨index, i :: rest⟩ → i.op = .defineMethod name scope →
    code body → ∀ selfOnly, method name ⟨name, body, scope, selfOnly⟩
  capture : ∀ {index : Nat} {i : Instruction} {rest : List Instruction} {scope : ScopeId}
    {body : Segment} {f : Frame}, code ⟨index, i :: rest⟩ → i.op = .defineBlock scope →
    code body → frame f → closure ⟨body, scope, f.env, f.self, f.block, f.name⟩

namespace Terms

/-- Any code. -/
def any : Terms where
  code _ := True
  method _ _ := True
  closure _ := True
  frame _ := True
  tail _ := trivial
  parts _ _ := ⟨trivial, trivial⟩
  define _ _ _ _ := trivial
  capture _ _ _ _ := trivial

/-- All code that is kept for later is as it should be. -/
structure Holds (C : Terms) (x : Shared) : Prop where
  methods : ∀ name m, x.methods.get? name = some m → C.method name m
  procs : ∀ (id : ProcId) c, x.procs[id]? = some c → C.closure c

variable {C : Terms} {x y : Shared}

theorem holds_any (x : Shared) : Terms.any.Holds x := ⟨fun _ _ _ => trivial, fun _ _ _ => trivial⟩

/-- Nothing is kept at the start of a run. -/
theorem holds_init (C : Terms) (output : Output) : C.Holds (State.shared { output }) :=
  ⟨fun _ _ h => (nomatch h), fun _ _ h => (nomatch h)⟩

theorem Holds.congr (h : C.Holds x) (hmethods : y.methods = x.methods) (hprocs : y.procs = x.procs) :
    C.Holds y :=
  ⟨hmethods ▸ h.methods, hprocs ▸ h.procs⟩

/-- A method that may be kept is added to the others. -/
theorem Holds.withMethod (h : C.Holds x) {name : String} {m : Method} (hm : C.method name m) :
    C.Holds { x with methods := x.methods.insert name m } := by
  refine ⟨fun other m' hget => ?_, h.procs⟩
  rw [Table.get?_insert] at hget
  split at hget
  · rename_i heq
    cases hget
    exact heq ▸ hm
  · exact h.methods other m' hget

/-- A block that may be kept is added to the others. -/
theorem Holds.withProc (h : C.Holds x) {c : Closure} (hc : C.closure c) :
    C.Holds { x with procs := x.procs.push c } := by
  refine ⟨h.methods, fun id c' hget => ?_⟩
  rw [Array.getElem?_push] at hget
  split at hget
  · cases hget
    exact hc
  · exact h.procs id c' hget

/-- The calls that an instruction can make: a message calls a method of its name, a yield a block. -/
inductive Calls (C : Terms) (op : Op) (index : Nat) :
    Segment → ScopeId → (EnvId → Nat → Frame) → Prop
  | send {name : String} {argc : UInt64} {receiver withBlock : Bool} {m : Method} {self : Value}
      {args : List Value} {block : Option ProcId} (hop : op = .send name argc receiver withBlock)
      (hm : C.method name m) :
      Calls C op index m.body m.scope fun env base =>
        { name := m.name, callSite := index, args, env, block, self, base }
  | yield {argc : UInt64} {c : Closure} {args : List Value} (hop : op = .yield argc)
      (hc : C.closure c) :
      Calls C op index c.body c.scope fun env base =>
        { name := "block in " ++ c.home, callSite := index, args, env, block := c.block,
          self := c.self, base }

/-- Every call begins at the height at which it is made. -/
theorem Calls.base_eq {op : Op} {index : Nat} {body : Segment} {scope : ScopeId}
    {frame : EnvId → Nat → Frame} (h : C.Calls op index body scope frame) (env : EnvId)
    (base : Nat) : (frame env base).base = base := by
  cases h <;> rfl

end Terms

/-! ## Families of computations -/

/-- A property of families of computations, kept by sequencing and by the operations of the
machine, when the code that runs is as the terms say. -/
structure Congruence {ι : Type} (C : Terms) (R : ∀ α : Type, (ι → Exec α) → Prop) : Prop where
  pure : ∀ {α : Type} (a : α), R α fun _ => pure a
  bind : ∀ {α β : Type} {m : ι → Exec α} {f : ι → α → Exec β}, R α m →
    (∀ a, R β fun i => f i a) → R β fun i => m i >>= f i
  fail : ∀ {α : Type} (f : Fault), f.Ordinary → R α fun _ => fail f
  read : ∀ {α : Type} {f : ι → State → Exec α}, (∀ (s : ι → State) (x : Shared),
    (∀ i, (s i).shared = x) → C.Holds x → R α fun i => f i (s i)) → R α fun i => get >>= f i
  update : ∀ g : Shared → Shared, (∀ x, C.Holds x → C.Holds (g x)) →
    R Unit fun _ => modify fun s => s.withShared (g s.shared)
  push : ∀ v, R Unit fun _ => push v
  pop : ∀ index, R Value fun _ => pop index
  peek : ∀ index, R Value fun _ => peek index
  popN : ∀ n index, R (List Value) fun _ => popN n index
  frame : ∀ {α : Type} {f : ι → Frame → Exec α} (index : Nat),
    (∀ x, C.frame x → R α fun i => f i x) → R α fun i => frame index >>= f i
  write : ∀ text, R Unit fun _ => write text

/-- A relation between two computations, as a property of the two. The first one is at `false`. -/
def Paired (R : ∀ α : Type, Exec α → Exec α → Prop) (α : Type) (m : Bool → Exec α) : Prop :=
  R α (m false) (m true)

/-- What holds of all families of states that agree in what they share holds of two such states. -/
theorem paired_of_shared {C : Terms} {R : ∀ α : Type, Exec α → Exec α → Prop} {α : Type}
    {f : Bool → State → Exec α} (hf : ∀ (s : Bool → State) (x : Shared), (∀ i, (s i).shared = x) →
      C.Holds x → Paired R α fun i => f i (s i)) {s s' : State} (h : s'.shared = s.shared)
    (hs : C.Holds s.shared) : R α (f false s) (f true s') :=
  hf (fun second => cond second s' s) s.shared (Bool.forall_bool.mpr ⟨rfl, h⟩) hs

namespace Congruence

variable {ι : Type} {C : Terms} {R : ∀ α : Type, (ι → Exec α) → Prop} {α β : Type}

/-- What each of many properties has, all of them have together. -/
theorem all {κ : Type} {R : κ → ∀ α : Type, (ι → Exec α) → Prop}
    (h : ∀ k, Congruence C (R k)) : Congruence C fun α m => ∀ k, R k α m where
  pure a k := (h k).pure a
  bind hm hf k := (h k).bind (hm k) fun a => hf a k
  fail f hf k := (h k).fail f hf
  read hf k := (h k).read fun s x hs hx => hf s x hs hx k
  update g hg k := (h k).update g hg
  push v k := (h k).push v
  pop index k := (h k).pop index
  peek index k := (h k).peek index
  popN n index k := (h k).popN n index
  frame index hf k := (h k).frame index fun x hx => hf x hx k
  write text k := (h k).write text

variable (h : Congruence C R)

include h

/-- Nothing follows a fault. -/
theorem stop {f : Fault} (hf : f.Ordinary) {g : ι → α → Exec β} :
    R β fun i => (Machine.fail f : Exec α) >>= g i := h.fail f hf

/-- Exceptions other than that of nested calls are ordinary faults. -/
theorem raise {e : Exception} (he : e ≠ .stackTooDeep) : R α fun _ => raise e :=
  h.fail _ ⟨rfl, he⟩

theorem malformed (index : Nat) (cause : Malformed.Cause) : R α fun _ => malformed index cause :=
  h.fail _ trivial

theorem map {m : ι → Exec α} (hm : R α m) (f : α → β) : R β fun i => f <$> m i := by
  simp only [map_eq_pure_bind]
  exact h.bind hm fun a => h.pure (f a)

/-- A search for a variable finds it or fails ordinarily. -/
theorem liftLookup (r : Except UnknownVariable α) : R α fun _ => liftLookup r := by
  cases r with
  | ok a => exact h.pure a
  | error e => exact h.fail _ trivial

/-- What is cut out of code, and what follows it, is code as it should be. -/
theorem cut {seg : Segment} (hseg : C.code seg) (sought : Terminator) (label : Option BlockLabel)
    {f : ι → Segment × Segment → Exec β}
    (hf : ∀ body after, C.code body → C.code after → R β fun i => f i (body, after)) :
    R β fun i => cut seg sought label >>= f i := by
  unfold Machine.cut
  split
  · rename_i parts hcut
    obtain ⟨hbody, hafter⟩ := C.parts hseg hcut
    exact hf _ _ hbody hafter
  · exact h.stop (by trivial)

/-- An environment is made for a scope, unless there is none. -/
theorem newEnv {cx : Setup} {scope : ScopeId} {parent : Option EnvId}
    (hmissing : Env.ofScope? cx.scopes scope parent = none →
      R EnvId fun _ => Machine.fail (.missingScope scope)) :
    R EnvId fun _ => newEnv cx scope parent := by
  unfold Machine.newEnv
  split
  · rename_i env henv
    refine h.read fun s x hs _ => ?_
    have henvs : ∀ i, (s i).envs = x.envs := fun i => congrArg Shared.envs (hs i)
    simp only [henvs]
    refine h.bind (h.update (fun x => { x with envs := x.envs.push env }) fun x hx => ?_) fun _ =>
      h.pure _
    exact hx.congr rfl rfl
  · rename_i hnone
    exact hmissing hnone

/-- Lookups are checked alike where the scopes are the same, and all or none of the family check
them. -/
theorem checkLookup {cx : ι → Setup} {T : ScopeTree} {checks : Bool}
    (hscopes : ∀ i, (cx i).scopes = T) (hchecks : ∀ i, (cx i).limits.checkScopes = checks)
    {scope : ScopeId} {name : String} {localOnly : Bool}
    (hmissing : T.resolve? scope name localOnly = none →
      R Unit fun _ => Machine.fail (.missingScope scope)) (env : EnvId) (index : Nat) :
    R Unit fun i => checkLookup (cx i) env scope name localOnly index := by
  unfold Machine.checkLookup
  simp only [hscopes, hchecks]
  split
  · split
    · rename_i hnone
      exact hmissing hnone
    · refine h.bind (h.liftLookup _) fun expected => h.read fun s x hs _ => ?_
      have henvs : ∀ i, (s i).envs = x.envs := fun i => congrArg Shared.envs (hs i)
      simp only [henvs]
      refine h.bind (h.liftLookup _) fun ⟨owner, depth⟩ => ?_
      dsimp only
      split
      · exact h.malformed _ _
      · exact h.pure _
  · exact h.pure _

theorem writeAll (line : Value → String) (args : List Value) :
    R PUnit fun _ => args.forM fun v => Machine.write (line v) := by
  induction args with
  | nil => exact h.pure _
  | cons v rest ih => exact h.bind (h.write _) fun _ => ih

theorem writeLines (args : List Value) : R Unit fun _ => writeLines args := by
  unfold Machine.writeLines
  split
  · exact h.write _
  · exact h.writeAll _ args

/-- How a body ends decides what its call comes to. -/
theorem complete (isBlock : Bool) (e : Ended) : R Completion fun _ => complete isBlock e := by
  obtain ⟨_ | _ | _ | ⟨_ | v⟩ | v, stop⟩ := e
  · exact h.bind (h.pop _) fun v => h.pure _
  · exact h.malformed _ _
  · exact h.pure _
  · exact h.malformed _ _
  · cases isBlock with
    | true => exact h.pure _
    | false => exact h.malformed _ _
  · cases isBlock with
    | true => exact h.malformed _ _
    | false => exact h.pure _

theorem deliver (c : Completion) : R (Option Signal) fun _ => deliver c := by
  cases c with
  | value v => exact h.bind (h.push v) fun _ => h.pure _
  | halt => exact h.pure _

/-- The block that goes with a message lies on top. -/
theorem popBlock (withBlock : Bool) (index : Nat) :
    R (Option ProcId) fun _ => popBlock withBlock index := by
  unfold Machine.popBlock
  split
  · refine h.bind (h.pop index) fun v => ?_
    split
    · exact h.pure _
    · exact h.malformed _ _
  · exact h.pure _

/-- The rounds of a loop keep what cutting the stack down to its base keeps. -/
theorem loop (hfuel : R (Option Signal) fun _ => throw .outOfFuel)
    {run : ι → Segment → Exec Ended} {test body : Segment} (htest : R Ended fun i => run i test)
    (hbody : R Ended fun i => run i body) {base : Nat} (htruncate : R Unit fun _ => truncate base)
    (index n : Nat) : R (Option Signal) fun i => loop (run i) test body index base n := by
  induction n with
  | zero => exact hfuel
  | succ n ih =>
    have leave : R (Option Signal) fun _ => do truncate base; return none :=
      h.bind htruncate fun _ => h.pure _
    have again : R (Option Signal) fun i =>
        (do truncate base; Machine.loop (run i) test body index base n) :=
      h.bind htruncate fun _ => ih
    unfold Machine.loop
    refine h.bind htest fun e => ?_
    split
    · exact leave
    · exact again
    · exact h.pure _
    · refine h.bind (h.pop index) fun v => ?_
      split
      · refine h.bind hbody fun e => ?_
        split
        · exact leave
        · exact again
        · exact again
        · exact h.pure _
      · exact leave

/-- The top level takes up what its code ends with. -/
theorem finish (hread : R Exit fun _ => get >>= fun s => Pure.pure (.finished s.stack.head?))
    (e : Ended) : R Exit fun _ => finish e := by
  obtain ⟨_ | _ | _ | _ | v, stop⟩ := e
  · exact hread
  · exact h.malformed _ _
  · exact h.pure _
  · exact h.malformed _ _
  · exact h.pure _

end Congruence

/-! ## Limits -/

/-- The fault of a run that goes beyond its limits with this many instructions and operands. -/
def Limits.exceeded? (limits : Limits) (steps height : Nat) : Option Fault :=
  match limits.steps.filter (· < steps), limits.stack.filter (· < height) with
  | some max, _ => some (.stepLimit max)
  | none, some max => some (.stackLimit max)
  | none, none => none

/-- The guard in front of an instruction, with what is done within the limit. -/
theorem guard_eq (limit : Option Nat) (n : Nat) (f : Nat → Fault) (within : Exec Unit) (s : State) :
    (match limit with
      | some max => if max < n then (do let done ← fail (f max); (fun (_ : Unit) => within) done)
          else within
      | _ => within : Exec Unit) s =
      match limit.filter (· < n) with
      | some max => .error (.fault (f max)) s
      | none => within s := by
  cases limit with
  | none => rfl
  | some max =>
    by_cases hmax : max < n
    · simp only [if_pos hmax, Option.filter, decide_eq_true hmax]
      rfl
    · simp only [if_neg hmax, Option.filter, decide_eq_false hmax]
      rfl

/-- An instruction is counted, whether it is within the limits or not. -/
theorem tick_eq (cx : Setup) (s : State) :
    tick cx s = match cx.limits.exceeded? (s.steps + 1) s.stack.length with
      | none => .ok () { s with steps := s.steps + 1 }
      | some f => .error (.fault f) { s with steps := s.steps + 1 } := by
  have hsteps := guard_eq cx.limits.steps (s.steps + 1) .stepLimit (match cx.limits.stack with
      | some max => if max < s.stack.length then fail (.stackLimit max) else pure ()
      | _ => pure ()) { s with steps := s.steps + 1 }
  have hstack := guard_eq cx.limits.stack s.stack.length .stackLimit (pure ())
    { s with steps := s.steps + 1 }
  unfold Limits.exceeded?
  refine hsteps.trans ?_
  cases cx.limits.steps.filter (· < s.steps + 1) with
  | some max => rfl
  | none =>
    refine hstack.trans ?_
    cases cx.limits.stack.filter (· < s.stack.length) <;> rfl

/-! ## Instructions -/

/-- A property that instructions keep, given the code that they run. -/
structure Upholds {ι : Type} (C : Terms) (R : ∀ α : Type, (ι → Exec α) → Prop) (leave : ι → Leave)
    (cx : ι → Setup) (run : ι → Segment → Exec Ended) (fuel : ι → Nat) : Prop extends
    Congruence C R where
  runs : ∀ {seg : Segment}, C.code seg → R Ended fun k => run k seg
  lookup : ∀ {index : Nat} {i : Instruction} {rest : List Instruction}, C.code ⟨index, i :: rest⟩ →
    ∀ env name localOnly, R Unit fun k => checkLookup (cx k) env i.scope name localOnly index
  call : ∀ {index : Nat} {i : Instruction} {rest : List Instruction} {body : Segment}
    {scope : ScopeId} {frame : EnvId → Nat → Frame}, C.code ⟨index, i :: rest⟩ →
    C.Calls i.op index body scope frame → ∀ parent isBlock,
      R Completion fun k => callBy (leave k) (cx k) (run k) body scope parent isBlock frame
  whileTrue : ∀ {test body : Segment}, C.code test → C.code body → ∀ index,
    R (Option Signal) fun k => get >>= fun s => loop (run k) test body index s.stack.length (fuel k)

namespace Upholds

variable {ι : Type} {C : Terms} {R : ∀ α : Type, (ι → Exec α) → Prop} {leave : ι → Leave}
  {cx : ι → Setup} {run : ι → Segment → Exec Ended} {fuel : ι → Nat} {index : Nat}
  {i : Instruction} {rest : List Instruction} (h : Upholds C R leave cx run fuel)

include h

/-- **A message keeps the property** if the method that it finds does. -/
theorem dispatch (hcode : C.code ⟨index, i :: rest⟩) {message : String} {argc : UInt64}
    {explicit withBlock : Bool} (hop : i.op = .send message argc explicit withBlock)
    (receiver : Option Value) (args : List Value) (block : Option ProcId) (target : Value) :
    R Completion fun k =>
      dispatchBy (leave k) (cx k) (run k) receiver message args block index target := by
  unfold dispatchBy
  split
  · exact h.pure _
  · rename_i e he
    refine h.raise ?_
    rintro rfl
    exact Builtin.call?_ne_stackTooDeep _ _ _ he
  refine h.read fun s x hs hx => ?_
  have hmethods : ∀ k, (s k).methods = x.methods := fun k => congrArg Shared.methods (hs k)
  simp only [hmethods]
  split
  · rename_i m hm
    split
    · exact h.raise (by simp)
    · exact h.call hcode (.send hop (hx.methods message m hm)) _ _
  · split
    · exact h.bind (h.writeLines args) fun _ => h.pure _
    · exact h.bind (h.writeAll _ args) fun _ => h.pure _
    · exact h.raise (by simp)

theorem send (hcode : C.code ⟨index, i :: rest⟩) {message : String} {argc : UInt64}
    {explicit withBlock : Bool} (hop : i.op = .send message argc explicit withBlock)
    (receiver : Option Value) (args : List Value) (block : Option ProcId) :
    R Completion fun k => sendBy (leave k) (cx k) (run k) receiver message args block index := by
  cases receiver with
  | some v => exact h.dispatch hcode hop _ _ _ _
  | none => exact h.frame index fun f _ => h.dispatch hcode hop _ _ _ _

/-- **An instruction keeps the property** if the code that it runs does, and so does what follows it
with the code that is left. -/
theorem step (after : Segment) (hcode : C.code ⟨after.start - 1, i :: after.code⟩)
    (hafter : C.code after) {β : Type} {g : ι → Option Signal × Segment → Exec β}
    (hg : ∀ signal after, C.code after → R β fun k => g k (signal, after)) :
    R β fun k => stepBy (leave k) (cx k) (run k) (fuel k) i after >>= g k := by
  have plain : ∀ {act : ι → Exec Unit}, R Unit act → ∀ {after : Segment}, C.code after →
      R β fun k => (do act k; return (none, after) : Exec (Option Signal × Segment)) >>= g k := by
    intro act hact after hafter
    simp only [bind_assoc, pure_bind]
    exact h.bind hact fun _ => hg _ _ hafter
  have delivered : ∀ {m : ι → Exec Completion}, R Completion m → R β fun k => m k >>= fun result =>
      Machine.deliver result >>= fun signal => g k (signal, after) := fun hm =>
    h.bind hm fun result => h.bind (h.deliver result) fun signal => hg _ _ hafter
  have given : ∀ {α : Type} {m : ι → Exec α}, R α m → ∀ (f : α → Option Signal),
      R β fun k => (do return (f (← m k), after) : Exec (Option Signal × Segment)) >>= g k := by
    intro α m hm f
    simp only [bind_assoc, pure_bind]
    exact h.bind hm fun a => hg _ _ hafter
  obtain ⟨op, scope⟩ := i
  cases op with
  | pushInt | pushString | pushSymbol | pushNil | pushTrue | pushFalse =>
    exact plain (h.push _) hafter
  | pushSelf | pushArg => exact plain (h.frame _ fun f _ => h.push _) hafter
  | pop => exact plain (h.bind (h.pop _) fun _ => h.pure _) hafter
  | dup => exact plain (h.bind (h.peek _) fun v => h.push v) hafter
  | getLocal name =>
    refine plain (h.frame _ fun f _ => h.bind (h.lookup hcode ..) fun _ => ?_) hafter
    refine h.read fun s x hs _ => ?_
    have henvs : ∀ k, (s k).envs = x.envs := fun k => congrArg Shared.envs (hs k)
    simp only [henvs]
    exact h.bind (h.liftLookup _) fun v => h.push v
  | setLocal name localOnly =>
    refine plain (h.bind (h.pop _) fun v => h.frame _ fun f _ =>
      h.bind (h.lookup hcode ..) fun _ => h.read fun s x hs _ => ?_) hafter
    have henvs : ∀ k, (s k).envs = x.envs := fun k => congrArg Shared.envs (hs k)
    simp only [henvs]
    refine h.bind (h.liftLookup _) fun found => ?_
    exact h.update (fun x => { x with envs := x.envs.assign found.1 name v }) fun _ hx =>
      hx.congr rfl rfl
  | getGlobal name =>
    refine plain (h.read fun s x hs _ => ?_) hafter
    have hglobals : ∀ k, (s k).globals = x.globals := fun k => congrArg Shared.globals (hs k)
    simp only [hglobals]
    exact h.push _
  | setGlobal name =>
    refine plain (h.bind (h.pop _) fun v => ?_) hafter
    exact h.update (fun x => { x with globals := x.globals.insert name v }) fun _ hx =>
      hx.congr rfl rfl
  | checkArgs expected =>
    refine plain (h.frame _ fun f _ => ?_) hafter
    dsimp only
    split
    · exact h.raise (by simp)
    · exact h.pure _
  | send message argc receiver withBlock =>
    simp only [stepBy, bind_assoc]
    refine h.bind (h.popBlock withBlock _) fun block => h.bind (h.popN argc _) fun args => ?_
    have sent := fun target => delivered (h.send hcode rfl target args block)
    cases receiver with
    | true =>
      simp only [if_true, bind_assoc, pure_bind]
      exact h.bind (h.map (h.pop _) some) sent
    | false =>
      simp only [Bool.false_eq_true, if_false, bind_assoc, pure_bind]
      exact sent none
  | yield argc =>
    simp only [stepBy, bind_assoc]
    refine h.bind (h.popN argc _) fun args => h.frame _ fun f _ => h.read fun s x hs hx => ?_
    have hprocs : ∀ k, (s k).procs = x.procs := fun k => congrArg Shared.procs (hs k)
    simp only [hprocs]
    split
    · exact h.stop (f := .raised ⟨.noBlock, []⟩) ⟨rfl, by simp⟩
    · rename_i c hc
      obtain ⟨id, -, hid⟩ := Option.bind_eq_some_iff.mp hc
      simp only [bind_assoc, pure_bind]
      exact delivered (h.call hcode (.yield rfl (hx.procs id c hid)) _ _)
  | ifTrue =>
    simp only [stepBy, Machine.step, bind_assoc]
    refine h.bind (h.pop _) fun condition => h.cut hafter _ _ fun yes mid hyes hmid =>
      h.cut hmid _ _ fun no after hno hafter => ?_
    cases condition.isTruthy with
    | true => exact h.bind (h.runs hyes) fun e => hg _ _ hafter
    | false => exact h.bind (h.runs hno) fun e => hg _ _ hafter
  | whileTrue =>
    simp only [stepBy, Machine.step, bind_assoc]
    refine h.cut hafter _ _ fun test mid htest hmid => h.cut hmid _ _ fun body _ hbody hafter => ?_
    have hloop := h.bind (h.whileTrue htest hbody (after.start - 1)) fun signal =>
      hg signal _ hafter
    simpa only [bind_assoc, pure_bind] using hloop
  | defineMethod name home =>
    simp only [stepBy, Machine.step, bind_assoc]
    refine h.cut hafter _ _ fun body after hbody hafter => h.bind ?_ fun _ => plain (h.push _) hafter
    exact h.update (fun x => { x with
      methods := x.methods.insert name ⟨name, body, home, x.visibility = .selfOnly⟩ }) fun _ hx =>
        hx.withMethod (C.define hcode rfl hbody _)
  | defineBlock home =>
    simp only [stepBy, Machine.step, bind_assoc]
    refine h.cut hafter _ _ fun body after hbody hafter => h.frame _ fun f hf =>
      h.read fun s x hs _ => ?_
    have hprocs : ∀ k, (s k).procs = x.procs := fun k => congrArg Shared.procs (hs k)
    simp only [hprocs]
    refine h.bind ?_ fun _ => plain (h.push _) hafter
    exact h.update (fun x => { x with
      procs := x.procs.push ⟨body, home, f.env, f.self, f.block, f.name⟩ }) fun _ hx =>
        hx.withProc (C.capture hcode rfl hbody hf)
  | orElse | loopBody | endBlock => exact h.stop (by trivial)
  | ret => exact given (h.pop _) fun v => some (.ret v)
  | breakOut | halt => exact hg _ _ hafter
  | next withValue =>
    cases withValue with
    | true => exact given (h.map (h.pop _) some) fun v => some (.next v)
    | false => exact hg _ _ hafter
  | setVisibility visibility =>
    exact plain (h.update (fun x => { x with visibility }) fun _ hx => hx.congr rfl rfl) hafter

end Upholds

/-- An instruction of the machine itself, whatever code it runs. -/
theorem Upholds.step_any {ι : Type} {R : ∀ α : Type, (ι → Exec α) → Prop} {cx : ι → Setup}
    {run : ι → Segment → Exec Ended} {fuel : ι → Nat}
    (h : Upholds .any R (fun _ => leaveCall) cx run fuel) (i : Instruction) (after : Segment) :
    R (Option Signal × Segment) fun k => Machine.step (cx k) (run k) (fuel k) i after := by
  have hstep := h.step (i := i) after trivial trivial fun signal rest _ =>
    h.pure (signal, rest)
  simpa only [bind_pure, ← step_eq_stepBy] using hstep

/-! ## Segments -/

/-- **Segments keep a property** that instructions keep when the code they run has it. -/
theorem Congruence.execBy {ι : Type} {C : Terms} {R : ∀ α : Type, (ι → Exec α) → Prop}
    {hooks : ι → Hooks} {cx : ι → Setup} (h : Congruence C R)
    (hfuel : R Ended fun _ => throw .outOfFuel) (hbefore : ∀ i, R Unit fun k => (hooks k).before i)
    (hupholds : ∀ {run : ι → Segment → Exec Ended} (n : Nat),
      (∀ {seg}, C.code seg → R Ended fun k => run k seg) →
        Upholds C R (fun k => (hooks k).leave) cx run fun _ => n)
    (n : Nat) {seg : Segment} (hseg : C.code seg) :
    R Ended fun k => Machine.execBy (hooks k) (cx k) n seg := by
  induction n generalizing seg with
  | zero => exact hfuel
  | succ n ih =>
    obtain ⟨index, _ | ⟨i, rest⟩⟩ := seg
    · exact h.pure _
    · refine h.bind (hbefore i) fun _ => (hupholds n ih).step ⟨index + 1, rest⟩ hseg
        (C.tail hseg) fun signal after hafter => ?_
      cases signal with
      | none => exact ih hafter
      | some signal => exact h.pure _

end Machine

end StackCode
