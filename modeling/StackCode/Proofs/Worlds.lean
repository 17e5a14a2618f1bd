import StackCode.Proofs.CodeMeaning
import StackCode.Proofs.Visible

/-!
# States that stand for the evaluator's

`Like T w s`: the state `s` of the machine holds what the state `w` of the evaluator does, where `T`
are the scopes of the finished program. The methods are those of which the machine has the code,
and the variables of a call are kept in the environment with the same number.

`Has T c stack w s` adds the call that is going on: which call it is, which blocks it can reach, and
which operands there are.
-/

namespace StackCode.Machine

open ScopeTree (Binds Hoists)
open Eval (World Locals Context Block)

variable {T t t' : ScopeTree} {w w' : World} {s s' : State}

/-! ## Lowered bodies -/

/-- A stage on the way to the finished scopes `T`: what is bound there is so in the end. -/
structure Settled (t T : ScopeTree) : Prop extends Finished t T where
  binds : ∀ {s : ScopeId} {name : String} {localOnly : Bool} {d : Nat} {r : ScopeId}
    {slot : UInt64}, Binds t name localOnly s d r slot → Binds T name localOnly s d r slot

/-- A finished tree is settled for every earlier stage. -/
theorem Settled.of_evolves {r : ScopeId} (h : Settled t' T) (he : Evolves r t t') :
    Settled t T := by
  obtain ⟨n, hn⟩ := he.grows
  exact ⟨h.toFinished.of_grows hn, fun hb => h.binds (he.binds hb)⟩

/-- The number of parameters that a body is written with. -/
def paramCount : Expr → Nat
  | .iter _ _ _ params _ | .method _ params _ => params.length
  | _ => 0

/-- Every list of arguments or parameters in the expression is one that the machine can count. -/
def Fits (c : Setting) (e : Expr) : Prop :=
  Expr.Everywhere (fun _ e => e.argCount < 2 ^ 63 ∧ paramCount e < 2 ^ 63) c e

/-- The limits hold of the form and of its parts. -/
theorem fits_iff {c : Setting} {e : Expr} : Fits c e ↔
    (e.argCount < 2 ^ 63 ∧ paramCount e < 2 ^ 63) ∧ ∀ x ∈ e.parts c, Fits x.1 x.2 :=
  Expr.everywhere_iff

theorem Fits.countable {c : Setting} {e : Expr} (h : Fits c e) : e.Countable c :=
  fun x hx => (h x hx).1

theorem paramCount_lt_sizeOf (e : Expr) : paramCount e < sizeOf e := by
  have hlist : ∀ params : List String, params.length < sizeOf params := by
    intro params
    induction params with
    | nil => simp
    | cons name rest ih =>
      rw [List.length_cons, List.cons.sizeOf_spec]
      omega
  cases e <;> simp [paramCount]
  all_goals grind

/-- Every expression that can be written down fits. -/
theorem fits_of_sizeOf_lt {c : Setting} {e : Expr} (h : sizeOf e < 2 ^ 63) : Fits c e := by
  refine fits_iff.mpr ⟨⟨Nat.lt_trans (Expr.argCount_lt_sizeOf e) h,
    Nat.lt_trans (paramCount_lt_sizeOf e) h⟩, fun x hx => ?_⟩
  have := Expr.sizeOf_lt_of_mem_parts hx
  exact fits_of_sizeOf_lt (Nat.lt_trans this h)
termination_by sizeOf e

/-- The code that binds parameters to arguments, from number `n` on. -/
def bindingCode (here : Place) : Nat → List String → List Instruction
  | _, [] => []
  | n, name :: rest =>
    here.emit [.pushArg n.toUInt64, .setLocal name true] ++ bindingCode here (n + 1) rest

/-- The code that stores arguments does not depend on the scopes. -/
theorem bindParams_code (here : Place) (n : Nat) (params : List String) (t : ScopeTree) :
    (Expr.bindParams here n params t).1 = bindingCode here n params := by
  induction params generalizing n t with
  | nil => rfl
  | cons name rest ih =>
    show here.emit _ ++ (Expr.bindParams here (n + 1) rest (t.declare here.scope name)).1 = _
    rw [ih]
    rfl

/-- What a method checks before anything else. -/
def arityCode (here : Place) (params : List String) : List Instruction :=
  if here.body = .method then here.emit [.checkArgs params.length.toUInt64] else []

/-- The code is what the body of a method or block was lowered to. Inside, the names can be seen. -/
structure LoweredBody (T : ScopeTree) (here : Place) (params : List String) (body : List Expr)
    (names : Names) (code : List Instruction) : Prop where
  outside : here.inLoop = false
  counted : params.length < 2 ^ 63
  fits : ∀ e ∈ body, Fits here.setting e
  bound : ∀ name ∈ params, ∃ slot, Binds T name true here.scope 0 here.scope slot
  lowered : ∃ t t' inner, View t here.scope here.scope names ∧
    Expr.lowerBody here t body = .ok (inner, t') ∧ Settled t' T ∧
    code = arityCode here params ++ bindingCode here 0 params ++ inner

/-! ## Methods, variables and blocks -/

/-- The method of the machine is the one of the evaluator. -/
structure LikeMethod (T : ScopeTree) (m : Eval.Method) (m' : Method) : Prop where
  selfOnly : m'.selfOnly = m.selfOnly
  opens : Op.opensMethod T m'.scope = true
  body : LoweredBody T { scope := m'.scope, body := .method } m.params m.body [m.params] m'.body.code

/-- The environment holds the variables. Those that have not been assigned yet are nil there. -/
structure LikeLocals (own : Locals) (env : Env) : Prop where
  parent : own.parent = env.parent.map EnvId.index
  values : ∀ name v, env.vars.get? name = some v → v = (own.values.get? name).getD .nil

/-- The number stands for the block. -/
inductive Captures (T : ScopeTree) (procs : Array Closure) : Option Block → Option ProcId → Prop
  | none : Captures T procs none none
  | some {params : List String} {body : List Expr} {names : Names} {self : Value}
      {block : Option Block} {locals : Nat} {id : ProcId} {c : Closure}
      (hid : procs[id]? = some c)
      (hbody : LoweredBody T { scope := c.scope, body := .block } params body (params :: names)
        c.body.code)
      (hself : c.self = self) (hlocals : c.env.index = locals)
      (hblock : Captures T procs block c.block) :
      Captures T procs (some (.mk params body names self block locals)) (some id)

/-- The machine holds what the evaluator does. -/
structure Like (T : ScopeTree) (w : World) (s : State) : Prop where
  globals : s.globals = w.globals
  visibility : s.visibility = w.visibility
  output : s.output = w.output
  methods : ∀ name, Option.Rel (LikeMethod T) (w.methods.get? name) (s.methods.get? name)
  envs : s.envs.Mirrors T
  size : w.locals.size = s.envs.envs.size
  locals : ∀ (i : Nat) (own : Locals) (env : Env), w.locals[i]? = some own →
    s.envs.envs[i]? = some env → LikeLocals own env
  procs : ∀ (id : ProcId) (c : Closure), s.procs[id]? = some c →
    ∃ env, s.envs.get? c.env = some env ∧ Op.opensBlock T env.lexical c.scope = true

/-- A state that differs in operands, calls and steps only. -/
theorem Like.congr (h : Like T w s) (hglobals : s'.globals = s.globals)
    (hvisibility : s'.visibility = s.visibility) (houtput : s'.output = s.output)
    (hmethods : s'.methods = s.methods) (henvs : s'.envs = s.envs) (hprocs : s'.procs = s.procs) :
    Like T w s' where
  globals := hglobals.trans h.globals
  visibility := hvisibility.trans h.visibility
  output := houtput.trans h.output
  methods := by rw [hmethods]; exact h.methods
  envs := by rw [henvs]; exact h.envs
  size := by rw [henvs]; exact h.size
  locals := by rw [henvs]; exact h.locals
  procs := by rw [henvs, hprocs]; exact h.procs

/-- Environments and captured blocks that were there still are. -/
structure Later (s s' : State) : Prop where
  envs : s.envs.Keeps s'.envs
  procs : ∀ (id : ProcId) (c : Closure), s.procs[id]? = some c → s'.procs[id]? = some c

theorem Later.refl (s : State) : Later s s :=
  ⟨fun _ env h => ⟨env, h, rfl⟩, fun _ _ h => h⟩

theorem Later.of_eq (henvs : s'.envs = s.envs) (hprocs : s'.procs = s.procs) : Later s s' := by
  refine ⟨?_, ?_⟩
  · rw [henvs]
    exact (Later.refl s).envs
  · rw [hprocs]
    exact (Later.refl s).procs

theorem Later.trans {s'' : State} (h : Later s s') (h' : Later s' s'') : Later s s'' := by
  refine ⟨fun id env hget => ?_, fun id c hget => h'.procs id c (h.procs id c hget)⟩
  obtain ⟨env', hget', hlex⟩ := h.envs id env hget
  obtain ⟨env'', hget'', hlex'⟩ := h'.envs id env' hget'
  exact ⟨env'', hget'', hlex'.trans hlex⟩

/-- A block that was captured can be called later on. -/
theorem Captures.later {block : Option Block} {id : Option ProcId}
    (h : Captures T s.procs block id) (hl : Later s s') : Captures T s'.procs block id := by
  induction h with
  | none => exact .none
  | some hid hbody hself hlocals _ ih => exact .some (hl.procs _ _ hid) hbody hself hlocals ih

/-! ## The call that is going on -/

/-- A call: what the evaluator knows of it, its frame and those around it, the scope that it runs,
and the state in which it began. -/
structure Scene where
  context : Context
  frame : Frame
  outer : List Frame
  home : ScopeId
  entry : State
  self_eq : frame.self = context.self
  locals_eq : frame.env.index = context.locals

variable {c : Scene} {stack stack' : List Value}

/-- The call is going on and the operands are those of `stack`. -/
structure Has (T : ScopeTree) (c : Scene) (stack : List Value) (w : World) (s : State) : Prop where
  like : Like T w s
  frames : s.frames = c.frame :: c.outer
  env : ∃ env, s.envs.get? c.frame.env = some env ∧ env.lexical = c.home
  block : Captures T s.procs c.context.block c.frame.block
  later : Later c.entry s
  stack_eq : s.stack = stack

/-- What the call has done changes neither the calls nor what was captured. -/
theorem Has.update (h : Has T c stack w s) (hlike : Like T w' s') (hframes : s'.frames = s.frames)
    (hlater : Later s s') (hstack : s'.stack = stack') : Has T c stack' w' s' where
  like := hlike
  frames := hframes.trans h.frames
  env := by
    obtain ⟨env, hget, hlex⟩ := h.env
    obtain ⟨env', hget', hlex'⟩ := hlater.envs _ _ hget
    exact ⟨env', hget', hlex'.trans hlex⟩
  block := h.block.later hlater
  later := h.later.trans hlater
  stack_eq := hstack

/-- Only the operands and the count of steps have changed. -/
theorem Has.restack (h : Has T c stack w s) (hs : ∃ steps, s' = { s with stack := stack', steps }) :
    Has T c stack' w s' := by
  obtain ⟨steps, rfl⟩ := hs
  exact h.update (h.like.congr rfl rfl rfl rfl rfl rfl) rfl (.of_eq rfl rfl) rfl

theorem Has.base (h : Has T c stack w s) : s.base = c.frame.base := by
  rw [State.base_eq_floorOf, h.frames]
  rfl

/-! ## Variables -/

/-- An environment has its counterpart among the variables of the evaluator. -/
theorem Like.exists_locals (h : Like T w s) {id : EnvId} {env : Env}
    (hget : s.envs.get? id = some env) :
    ∃ own, w.locals[id.index]? = some own ∧ LikeLocals own env := by
  have hlt : id.index < w.locals.size := by
    rw [h.size]
    exact EnvStore.index_lt_size hget
  exact ⟨_, Array.getElem?_eq_getElem hlt,
    h.locals _ _ _ (Array.getElem?_eq_getElem hlt) hget⟩

/-- The variables of an environment that is `d` parents further out are as far out. -/
theorem Like.holder_of_outward (h : Like T w s) {id owner : EnvId} {d : Nat}
    (ho : s.envs.Outward id d owner) : w.holder id.index d = some owner.index := by
  induction ho with
  | here => rfl
  | @parent id next owner env d hget hnext _ ih =>
    obtain ⟨own, hown, hlike⟩ := h.exists_locals hget
    have hp : own.parent = some next.index := by rw [hlike.parent, hnext]; rfl
    simp only [World.holder, hown, hp, Option.bind_eq_bind, Option.bind_some]
    exact ih

/-- **Both sides find a variable that is bound in the text**: the machine in the environment that
holds the variables which the evaluator finds as many bodies further out. -/
theorem Has.lookup (h : Has T c stack w s) (hT : T.Proper) {name : String} {localOnly : Bool}
    {scope r : ScopeId} {d : Nat} {slot : UInt64}
    (hb : Binds T name localOnly scope d r slot) (hscope : Hoists T scope c.home) :
    ∃ owner env own, T.resolve? scope name localOnly = some (.ok ⟨r, d, slot⟩) ∧
      s.envs.resolve c.frame.env name localOnly = .ok (owner, d) ∧ s.envs.lexical owner = r ∧
      s.envs.get? owner = some env ∧ env.vars.contains name = true ∧
      w.holder c.context.locals d = some owner.index ∧
      w.locals[owner.index]? = some own ∧ LikeLocals own env := by
  obtain ⟨top, htop, hlex⟩ := h.env
  have htarget : T.hoistTarget? scope = some top.lexical := by
    rw [hlex]
    exact hscope.target hT.toSound
  obtain ⟨owner, hrun, hfound⟩ := resolve_of_binds hT.toSound h.like.envs hb htop htarget
  obtain ⟨houtward, env, henv, hname⟩ := EnvStore.outward_of_resolve hrun
  obtain ⟨own, hown, hlike⟩ := h.like.exists_locals henv
  refine ⟨owner, env, own, (ScopeTree.resolve?_eq_ok_iff hT.toSound).mpr hb, hrun, hfound, henv,
    hname, ?_, hown, hlike⟩
  rw [← c.locals_eq]
  exact h.like.holder_of_outward houtward

/-- An assignment changes the variables of the call that holds the name. -/
theorem World.assign_eq {locals level holder : Nat} {name : String} {v : Value}
    (h : w.holder locals level = some holder) : w.assign locals level name v =
      { w with locals := w.locals.modify holder fun own =>
          { own with values := own.values.insert name v } } := by
  simp only [World.assign, h]

/-- An assignment on both sides. -/
theorem Like.assign (h : Like T w s) {owner : EnvId} {env : Env} {name : String}
    (hget : s.envs.get? owner = some env) (hname : env.vars.contains name = true)
    {locals level : Nat} (hholder : w.holder locals level = some owner.index) (v : Value) :
    Like T (w.assign locals level name v) { s with envs := s.envs.assign owner name v } := by
  rw [World.assign_eq hholder]
  refine ⟨h.globals, h.visibility, h.output, h.methods, h.envs.assign hget hname v, ?_, ?_, ?_⟩
  · rw [Array.size_modify]
    exact h.size.trans Array.size_modify.symm
  · intro i own' env' hown henv
    have henv' : (s.envs.assign owner name v).get? ⟨i⟩ = some env' := henv
    rw [EnvStore.get?_assign] at henv'
    obtain ⟨old, hold, rfl⟩ := Option.map_eq_some_iff.mp henv'
    rw [Array.getElem?_modify] at hown
    split at hown
    · rename_i heq
      subst heq
      obtain ⟨own, hown', rfl⟩ := Option.map_eq_some_iff.mp hown
      have hlike := h.locals _ _ _ hown' hold
      rw [if_pos rfl]
      refine ⟨hlike.parent, fun x value hx => ?_⟩
      rw [Table.get?_insert] at hx ⊢
      split at hx
      · rename_i hxname
        cases hx
        rw [if_pos hxname]
        rfl
      · rename_i hxname
        rw [if_neg hxname]
        exact hlike.values x value hx
    · rename_i hne
      have hid : (⟨i⟩ : EnvId) ≠ owner := fun he => hne (by rw [← he])
      rw [if_neg hid]
      exact h.locals _ _ _ hown hold
  · intro id closure hid
    obtain ⟨env', henv', hopens⟩ := h.procs id closure hid
    obtain ⟨env'', henv'', hlex⟩ := EnvStore.keeps_assign s.envs owner name v _ _ henv'
    exact ⟨env'', henv'', by rw [hlex]; exact hopens⟩

/-! ## Output -/

theorem write_eq (text : String) (s : State) : write text s =
    if s.output.takes text then .ok () { s with output := s.output.put text }
    else .error (.fault .outputFull) { s with output := s.output.put text } := by
  unfold write Output.takes Output.put
  cases hroom : s.output.room with
  | none => simp only [if_true, hroom]
  | some room =>
    simp only [decide_eq_true_eq]
    split <;> rfl

theorem writeLines_eq (args : List Value) : writeLines args =
    if args.isEmpty then write "\n" else args.forM fun v => write v.line :=
  rfl

/-! ## Definitions -/

theorem Like.withGlobal (h : Like T w s) (name : String) (v : Value) :
    Like T { w with globals := w.globals.insert name v }
      { s with globals := s.globals.insert name v } where
  globals := by rw [h.globals]
  visibility := h.visibility
  output := h.output
  methods := h.methods
  envs := h.envs
  size := h.size
  locals := h.locals
  procs := h.procs

theorem Like.withVisibility (h : Like T w s) (visibility : Visibility) :
    Like T { w with visibility } { s with visibility } :=
  ⟨h.globals, rfl, h.output, h.methods, h.envs, h.size, h.locals, h.procs⟩

/-- Both sides write the same. -/
theorem Like.withOutput (h : Like T w s) (text : String) :
    Like T { w with output := w.output.put text } { s with output := s.output.put text } :=
  ⟨h.globals, h.visibility, by rw [h.output], h.methods, h.envs, h.size, h.locals, h.procs⟩

/-- A definition is made on both sides. -/
theorem Like.withMethod (h : Like T w s) (name : String) {m : Eval.Method} {m' : Method}
    (hm : LikeMethod T m m') : Like T { w with methods := w.methods.insert name m }
      { s with methods := s.methods.insert name m' } where
  globals := h.globals
  visibility := h.visibility
  output := h.output
  methods := by
    intro other
    rw [Table.get?_insert, Table.get?_insert]
    split
    · exact .some hm
    · exact h.methods other
  envs := h.envs
  size := h.size
  locals := h.locals
  procs := h.procs

theorem getElem?_push_of_some {procs : Array Closure} {id : ProcId} {closure new : Closure}
    (h : procs[id]? = some closure) : (procs.push new)[id]? = some closure := by
  have hlt := (Array.getElem?_eq_some_iff.mp h).1
  rw [Array.getElem?_push_lt hlt]
  exact (Array.getElem?_eq_getElem hlt).symm.trans h

/-- A block has been captured. -/
theorem Like.withProc (h : Like T w s) {closure : Closure} {env : Env}
    (henv : s.envs.get? closure.env = some env)
    (hopens : Op.opensBlock T env.lexical closure.scope = true) :
    Like T w { s with procs := s.procs.push closure } := by
  refine ⟨h.globals, h.visibility, h.output, h.methods, h.envs, h.size, h.locals, ?_⟩
  intro id closure' hid
  have hid : (s.procs.push closure)[id]? = some closure' := hid
  rw [Array.getElem?_push] at hid
  split at hid
  · cases hid
    exact ⟨env, henv, hopens⟩
  · exact h.procs id closure' hid

/-- A call gets its variables: they are nil at first. -/
theorem Like.enter (h : Like T w s) {scope : Scope} {home : ScopeId} {parent : Option EnvId}
    (hget : T.get? home = some scope) (hc : CanEnter T s scope parent) (frames : List Frame) :
    Like T { w with locals := w.locals.push { parent := parent.map EnvId.index } }
      { s with envs := s.envs.push (freshEnv scope home parent), frames } := by
  refine ⟨h.globals, h.visibility, h.output, h.methods, h.envs.push (hc.mirrors hget), ?_, ?_, ?_⟩
  · show (w.locals.push _).size = (s.envs.envs.push _).size
    rw [Array.size_push, Array.size_push, h.size]
  · intro i own env hown henv
    have henv : (s.envs.envs.push (freshEnv scope home parent))[i]? = some env := henv
    rw [Array.getElem?_push] at hown henv
    rw [h.size] at hown
    split at hown
    · rename_i heq
      rw [if_pos heq] at henv
      cases hown
      cases henv
      refine ⟨rfl, fun name v hv => ?_⟩
      -- all variables of a fresh environment are nil
      have hv : (scope.vars.map fun _ => Value.nil).get? name = some v := hv
      rw [Table.get?_map] at hv
      obtain ⟨_, -, rfl⟩ := Option.map_eq_some_iff.mp hv
      rfl
    · rename_i hne
      rw [if_neg hne] at henv
      exact h.locals i own env hown henv
  · intro id closure hid
    obtain ⟨env, henv, hopens⟩ := h.procs id closure hid
    obtain ⟨env', henv', hlex⟩ := EnvStore.keeps_push s.envs (freshEnv scope home parent) _ _ henv
    exact ⟨env', henv', by rw [hlex]; exact hopens⟩

end StackCode.Machine
