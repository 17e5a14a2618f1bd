import StackCode.Proofs.Compile
import StackCode.Proofs.Ensures
import StackCode.Proofs.Lookup

/-!
# States that disciplined code reaches

`Running T c h s` describes a state in the middle of a run of code whose scopes are `T`: the calls
`c` are active, the current one has `h` operands, every environment mirrors the scope that it runs,
and the bodies of all methods and captured blocks keep to the discipline of lowered code.

The primitives of the machine are specified by what they do to such states. None of them fails in a
state that has the operands it takes.
-/

namespace StackCode.Machine

/-! ## States -/

/-- Code that is the body of a method or a block: it leaves one value. -/
def IsBody (T : ScopeTree) (kind : BodyKind) (scope : ScopeId) (code : List Instruction) : Prop :=
  ∃ q, Nested (placement T) (.start kind scope) code q ∧ q.height = 1

/-- What the machine keeps for a whole run is in order. -/
structure Valid (T : ScopeTree) (s : State) : Prop where
  envs : s.envs.Mirrors T
  methods : ∀ name m, s.methods.get? name = some m →
    Op.opensMethod T m.scope = true ∧ IsBody T .method m.scope m.body.code
  procs : ∀ (id : ProcId) (c : Closure), s.procs[id]? = some c →
    (∃ env, s.envs.get? c.env = some env ∧ Op.opensBlock T env.lexical c.scope = true) ∧
    IsBody T .block c.scope c.body.code

/-- The active calls, each with the scope that it runs. -/
structure Calls where
  frame : Frame
  home : ScopeId
  outer : List (Frame × ScopeId)

namespace Calls

/-- All active calls, the innermost first. -/
def all (c : Calls) : List (Frame × ScopeId) := (c.frame, c.home) :: c.outer

/-- The calls when one more has been made. -/
def enter (c : Calls) (frame : Frame) (home : ScopeId) : Calls := ⟨frame, home, c.all⟩

end Calls

/-- The calls `c` are active and the current one has `h` operands. -/
structure Running (T : ScopeTree) (c : Calls) (h : Nat) (s : State) : Prop where
  valid : Valid T s
  frames : s.frames = c.all.map Prod.fst
  active : ∀ x ∈ c.all, ∃ env, s.envs.get? x.1.env = some env ∧ env.lexical = x.2
  height : s.stack.length = c.frame.base + h

variable {T : ScopeTree} {c : Calls} {h n k : Nat} {s : State} {index : Nat} {v : Value}

/-- The operands of the current call begin at the base of its frame. -/
theorem Running.base (hs : Running T c h s) : s.base = c.frame.base := by
  unfold State.base
  rw [hs.frames]
  rfl

/-- The current call has an environment, which runs its scope. -/
theorem Running.env (hs : Running T c h s) :
    ∃ env, s.envs.get? c.frame.env = some env ∧ env.lexical = c.home :=
  hs.active (c.frame, c.home) (List.mem_cons_self ..)

/-- A state that differs in operands, output, globals, visibility and steps only. -/
theorem Running.congr {s' : State} (hs : Running T c h s) (hframes : s'.frames = s.frames)
    (hmethods : s'.methods = s.methods) (henvs : s'.envs = s.envs) (hprocs : s'.procs = s.procs)
    (hstack : s'.stack.length = c.frame.base + k) : Running T c k s' where
  valid := by
    refine ⟨?_, ?_, ?_⟩
    · rw [henvs]; exact hs.valid.envs
    · rw [hmethods]; exact hs.valid.methods
    · rw [henvs, hprocs]; exact hs.valid.procs
  frames := hframes.trans hs.frames
  active := by rw [henvs]; exact hs.active
  height := hstack

/-! ## Operands -/

theorem Running.pushed (hs : Running T c h s) (v : Value) :
    Running T c (h + 1) { s with stack := v :: s.stack } :=
  hs.congr rfl rfl rfl rfl (by rw [List.length_cons, hs.height]; omega)

theorem ensures_push (hs : Running T c h s) : Ensures (push v) (fun _ => Running T c (h + 1)) s :=
  meets_of_eq rfl (hs.pushed v)

/-- The last operand, when there is one. -/
theorem Running.exists_top (hs : Running T c (h + 1) s) : ∃ v rest, s.stack = v :: rest := by
  have := hs.height
  cases hstack : s.stack with
  | nil =>
    rw [hstack, List.length_nil] at this
    omega
  | cons v rest => exact ⟨v, rest, rfl⟩

theorem pop_eq {rest : List Value} (hs : Running T c (h + 1) s) (hstack : s.stack = v :: rest) :
    pop index s = .ok v { s with stack := rest } := by
  have hheight := hs.height
  rw [hstack, List.length_cons] at hheight
  exact pop_of_stack hstack (by rw [hs.base]; omega) index

theorem Running.popped {rest : List Value} (hs : Running T c (h + 1) s)
    (hstack : s.stack = v :: rest) : Running T c h { s with stack := rest } := by
  have := hs.height
  rw [hstack, List.length_cons] at this
  exact hs.congr rfl rfl rfl rfl (by show rest.length = _; omega)

/-- A pop is safe at every height above zero. -/
theorem ensures_pop (hs : Running T c (h + 1) s) :
    Ensures (pop index) (fun _ => Running T c h) s := by
  obtain ⟨v, rest, hstack⟩ := hs.exists_top
  exact meets_of_eq (pop_eq hs hstack) (hs.popped hstack)

theorem ensures_peek (hs : Running T c (h + 1) s) :
    Ensures (peek index) (fun _ => Running T c (h + 1)) s := by
  obtain ⟨v, rest, hstack⟩ := hs.exists_top
  have hlt : s.base < s.stack.length := by
    rw [hs.base, hs.height]
    omega
  have heq : peek index s = .ok v s := by
    rw [hstack] at hlt
    simp only [peek, hstack, hlt, if_true]
  exact meets_of_eq heq hs

/-- Arguments are there when the height says so. -/
theorem ensures_popN {n : UInt64} (hs : Running T c (h + n.toNat) s) :
    Ensures (popN n index) (fun _ => Running T c h) s := by
  have hheight := hs.height
  have heq : popN n index s =
      .ok (s.stack.take n.toNat).reverse { s with stack := s.stack.drop n.toNat } := by
    unfold popN
    rw [if_neg (by rw [hs.base]; omega)]
  refine meets_of_eq heq (hs.congr rfl rfl rfl rfl ?_)
  show (s.stack.drop n.toNat).length = _
  rw [List.length_drop]
  omega

/-- Cutting the stack down to a height at which the current call has been. -/
theorem Running.truncated (hs : Running T c k s) (hk : h ≤ k) :
    Running T c h (s.truncate (c.frame.base + h)) := by
  refine hs.congr rfl rfl rfl rfl ?_
  have := hs.height
  show (s.stack.drop (s.stack.length - (c.frame.base + h))).length = _
  rw [List.length_drop]
  omega

/-! ## The current call -/

theorem frame_eq (hs : Running T c h s) : frame index s = .ok c.frame s := by
  have hframes := hs.frames
  obtain ⟨stack, frames, _⟩ := s
  obtain rfl : frames = _ := hframes
  rfl

/-! ## Environments -/

/-- A change of environments that keeps every scope that is run. -/
theorem Running.withEnvs {envs : EnvStore} (hs : Running T c h s) (hk : s.envs.Keeps envs)
    (hm : envs.Mirrors T) : Running T c h { s with envs } where
  valid := by
    refine ⟨hm, hs.valid.methods, fun id closure hid => ?_⟩
    obtain ⟨⟨env, hget, hopens⟩, hbody⟩ := hs.valid.procs id closure hid
    obtain ⟨env', hget', hlex⟩ := hk _ _ hget
    exact ⟨⟨env', hget', by rw [hlex]; exact hopens⟩, hbody⟩
  frames := hs.frames
  active := by
    intro x hx
    obtain ⟨env, hget, hlex⟩ := hs.active x hx
    obtain ⟨env', hget', hlex'⟩ := hk _ _ hget
    exact ⟨env', hget', hlex'.trans hlex⟩
  height := hs.height

/-- The environment that a call of a scope gets. -/
def freshEnv (scope : Scope) (lexical : ScopeId) (parent : Option EnvId) : Env :=
  { vars := scope.vars.map fun _ => .nil, parent, block := scope.block, lexical }

/-- A block can be called where its environment is that of the code around it. -/
def CanEnter (T : ScopeTree) (s : State) (scope : Scope) (parent : Option EnvId) : Prop :=
  scope.hoist = false ∧ ∀ outer, scope.block = true → scope.outer = some outer →
    ∃ id env, parent = some id ∧ s.envs.get? id = some env ∧ T.hoistTarget? outer = some env.lexical

/-- A fresh environment mirrors the scope that is entered. -/
theorem CanEnter.mirrors {scope : Scope} {lexical : ScopeId} {parent : Option EnvId}
    (hc : CanEnter T s scope parent) (hget : T.get? lexical = some scope) :
    (freshEnv scope lexical parent).Mirrors T s.envs s.envs.next scope where
  runs := hget
  owns := hc.1
  block := rfl
  names := by
    intro name
    simp [freshEnv, Table.contains, Table.get?_map]
  parent := by
    intro outer hb ho
    obtain ⟨id, env, rfl, hid, htarget⟩ := hc.2 outer hb ho
    exact ⟨id, env, rfl, EnvStore.index_lt_size hid, hid, htarget⟩

/-- Entering a call. -/
theorem Running.entered {scope : Scope} {home : ScopeId} {parent : Option EnvId}
    (hs : Running T c h s) (hget : T.get? home = some scope) (hc : CanEnter T s scope parent)
    {f : Frame} (henv : f.env = s.envs.next) (hbase : f.base = s.stack.length) :
    Running T (c.enter f home) 0
      { s with envs := s.envs.push (freshEnv scope home parent), frames := f :: s.frames } := by
  have hpush := hs.withEnvs (EnvStore.keeps_push s.envs (freshEnv scope home parent))
    (hs.valid.envs.push (hc.mirrors hget))
  refine ⟨⟨hpush.valid.envs, hpush.valid.methods, hpush.valid.procs⟩, ?_, ?_, ?_⟩
  · show f :: s.frames = f :: c.all.map Prod.fst
    rw [hs.frames]
  · intro x hx
    rcases List.mem_cons.mp hx with rfl | hx
    · refine ⟨freshEnv scope home parent, ?_, rfl⟩
      show (s.envs.push _).get? f.env = _
      rw [henv, EnvStore.get?_push, if_pos rfl]
    · exact hpush.active x hx
  · exact hbase.symm

/-- Leaving a call: the calls and the height are those from before it. -/
theorem Running.left {f : Frame} {home : ScopeId} (hs : Running T (c.enter f home) k s)
    (hbase : f.base = c.frame.base + h) : Running T c h s.leaveCall := by
  have hframes : s.frames = f :: c.all.map Prod.fst := hs.frames
  have hheight : s.stack.length = f.base + k := hs.height
  have heq : s.leaveCall = { s with frames := c.all.map Prod.fst }.truncate f.base := by
    simp only [State.leaveCall, hframes]
  rw [heq]
  refine ⟨⟨hs.valid.envs, hs.valid.methods, hs.valid.procs⟩, rfl, ?_, ?_⟩
  · intro x hx
    exact hs.active x (List.mem_cons_of_mem _ hx)
  · show (s.stack.drop (s.stack.length - f.base)).length = _
    rw [List.length_drop]
    omega

/-! ## Variables -/

/-- The text and the run agree on the variable of an instruction: both searches succeed, and the run
finds it in an environment of the declaring scope, as many blocks further out. -/
def LookupsAgree (T : ScopeTree) (i : Instruction) (s : State) : Prop :=
  ∀ name localOnly, i.op.access? = some (name, localOnly) → ∃ f rest found owner,
    s.frames = f :: rest ∧ T.resolve? i.scope name localOnly = some (.ok found) ∧
    s.envs.resolve f.env name localOnly = .ok (owner, found.depth) ∧
    s.envs.lexical owner = found.scope

/-- A variable that may be named here is bound, in a scope of this body. -/
theorem finds_of_admits {p : Point} {i : Instruction} {name : String} {localOnly : Bool}
    (ha : (placement T).admits p i = true) (hi : i.op.access? = some (name, localOnly)) :
    T.finds i.scope name localOnly = true ∧ T.hoistTarget? i.scope = some p.site.scope := by
  obtain ⟨-, hbelongs, -, hfits⟩ := admits_placement_iff.mp ha
  cases hop : i.op <;> rw [hop] at hi hbelongs hfits <;> cases hi
  · exact ⟨hfits, of_decide_eq_true hbelongs⟩
  · exact ⟨hfits, of_decide_eq_true hbelongs⟩

/-- **Where an instruction is admitted, its variable is found**, and found where the text has it. -/
theorem Running.lookupsAgree (hT : T.Proper) (hs : Running T c h s) {p : Point} {i : Instruction}
    (hhome : c.home = p.site.scope) (ha : (placement T).admits p i = true) :
    LookupsAgree T i s := by
  intro name localOnly hi
  obtain ⟨hfinds, htarget⟩ := finds_of_admits ha hi
  obtain ⟨depth, r, k, hb⟩ := (ScopeTree.finds_iff hT.toSound).mp hfinds
  obtain ⟨env, hget, hlex⟩ := hs.env
  rw [← hhome, ← hlex] at htarget
  obtain ⟨owner, hresolve, hfound⟩ := resolve_of_binds hT.toSound hs.valid.envs hb hget htarget
  exact ⟨c.frame, _, ⟨r, depth, k⟩, owner, hs.frames,
    (ScopeTree.resolve?_eq_ok_iff hT.toSound).mpr hb, hresolve, hfound⟩

end StackCode.Machine
