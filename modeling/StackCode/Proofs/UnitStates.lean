import StackCode.Proofs.Correspondence
import StackCode.Proofs.Translation

/-!
# Memories that stand for states of the machine

`Holds u t s m`: the memory `m` of a unit `u` holds what the state `s` of the machine does, where
`t` are the scopes of the program. Methods and globals stand at the numbers of their names, variables
in their slots, and environments and captured blocks have the same numbers on both sides. The
functions of methods and blocks are what their bodies became in C.

`Runs u t c values s m` adds the call that is going on, and the operands that it has.

Every change that an instruction makes is made on both sides (`Holds.withMethod`, `Holds.assign`,
`Holds.enter` and others), and both sides find a variable that is bound in the text (`Runs.lookup`).
-/

namespace StackCode.Native

open CUnit (Operand FunctionName Region Draft Translates)
open Machine (State Method Closure Frame ProcId Later CanEnter freshEnv)
open ScopeTree (Binds)

variable {u : CUnit} {t : ScopeTree} {s s' : State} {m m' : Memory}

/-! ## What stands for what -/

/-- The function with this name is what the body of a method or block became. -/
structure IsFunction (u : CUnit) (t : ScopeTree) (kind : BodyKind) (scope : ScopeId)
    (code : List Instruction) (name : FunctionName) : Prop where
  made : ∃ (q : Point) (r : Region) (d d' : Draft) (v : Operand) (owned : Scope),
    Translates t (.start kind scope) {} d code q r d' ∧ r.stack = [v] ∧ d'.Within u ∧
    t.get? scope = some owned ∧ u.function? name = some (r.toFunction name scope owned v)

/-- The entry stands for the method. -/
structure SameMethod (u : CUnit) (t : ScopeTree) (method : Method) (entry : Entry) : Prop where
  selfOnly : entry.selfOnly = method.selfOnly
  opens : Op.opensMethod t method.scope = true
  body : IsFunction u t .method method.scope method.body.code entry.function

/-- The slots hold the variables of the environment. -/
structure SameVars (t : ScopeTree) (env : Env) (own : Slots) : Prop where
  parent : own.parent = env.parent
  slots : ∀ scope name k, t.get? env.lexical = some scope → scope.vars.get? name = some k →
    own.vars[k.toNat]? = env.vars.get? name

/-- The same block has been captured. -/
structure SameBlock (u : CUnit) (t : ScopeTree) (closure : Closure) (captured : Captured) :
    Prop where
  env : captured.env = closure.env
  self : captured.self = closure.self
  block : captured.block = closure.block
  body : IsFunction u t .block closure.scope closure.body.code captured.function

/-- The memory holds what the machine does. -/
structure Holds (u : CUnit) (t : ScopeTree) (s : State) (m : Memory) : Prop where
  methods : ∀ (k : Nat) (name : String), u.symbols[k]? = some name →
    ∃ entry, m.methods[k]? = some entry ∧ Option.Rel (SameMethod u t) (s.methods.get? name) entry
  globals : ∀ (k : Nat) (name : String), u.symbols[k]? = some name →
    m.globals[k]? = some ((s.globals.get? name).getD .nil)
  visibility : m.visibility = s.visibility
  output : m.output = s.output
  mirrors : s.envs.Mirrors t
  envs_size : m.envs.size = s.envs.envs.size
  envs : ∀ id env, s.envs.get? id = some env →
    ∃ own, m.envs[id.index]? = some own ∧ SameVars t env own
  closures_size : m.closures.size = s.procs.size
  closures : ∀ (id : ProcId) (closure : Closure), s.procs[id]? = some closure →
    ∃ captured, m.closures[id]? = some captured ∧ SameBlock u t closure captured
  procs : ∀ (id : ProcId) (closure : Closure), s.procs[id]? = some closure →
    (∃ env, s.envs.get? closure.env = some env ∧
      Op.opensBlock t env.lexical closure.scope = true) ∧
    ∀ block, closure.block = some block → block < s.procs.size

/-- States that differ in operands, calls and steps only, and memories that differ in temps. -/
theorem Holds.congr (h : Holds u t s m) (hmethods : s'.methods = s.methods)
    (hglobals : s'.globals = s.globals) (hvisibility : s'.visibility = s.visibility)
    (houtput : s'.output = s.output) (henvs : s'.envs = s.envs) (hprocs : s'.procs = s.procs)
    (hm : ∃ temps, m' = { m with temps }) : Holds u t s' m' := by
  obtain ⟨temps, rfl⟩ := hm
  constructor
  · rw [hmethods]; exact h.methods
  · rw [hglobals]; exact h.globals
  · rw [hvisibility]; exact h.visibility
  · rw [houtput]; exact h.output
  · rw [henvs]; exact h.mirrors
  · rw [henvs]; exact h.envs_size
  · rw [henvs]; exact h.envs
  · rw [hprocs]; exact h.closures_size
  · rw [hprocs]; exact h.closures
  · rw [henvs, hprocs]; exact h.procs

/-! ## Changes on both sides -/

theorem index_eq_iff {names : List String} (hn : names.Nodup) {j k : Nat} {a b : String}
    (hj : names[j]? = some a) (hk : names[k]? = some b) : j = k ↔ a = b := by
  obtain ⟨hjlt, rfl⟩ := List.getElem?_eq_some_iff.mp hj
  obtain ⟨hklt, rfl⟩ := List.getElem?_eq_some_iff.mp hk
  exact hn.getElem_inj_iff.symm

theorem getElem?_set_of_some {α : Type} {a : Array α} {k j : Nat} {old new x : α}
    (hk : a[k]? = some old) (hj : a[j]? = some x) :
    (a.setIfInBounds k new)[j]? = some (if k = j then new else x) := by
  have hlt := (Array.getElem?_eq_some_iff.mp hk).1
  rw [Array.getElem?_setIfInBounds]
  by_cases heq : k = j
  · rw [if_pos heq, if_pos heq, if_pos hlt]
  · rw [if_neg heq, if_neg heq]
    exact hj

section

variable (h : Holds u t s m)

include h

theorem Holds.withGlobal (hu : u.symbols.Nodup) {k : Nat} {name : String}
    (hk : u.symbols[k]? = some name) (v : Value) :
    Holds u t { s with globals := s.globals.insert name v }
      { m with globals := m.globals.setIfInBounds k v } := by
  refine ⟨h.methods, fun j other hj => ?_, h.visibility, h.output, h.mirrors, h.envs_size, h.envs,
    h.closures_size, h.closures, h.procs⟩
  dsimp only
  rw [getElem?_set_of_some (h.globals k name hk) (h.globals j other hj), Table.get?_insert]
  have hiff := index_eq_iff hu hk hj
  by_cases heq : name = other
  · rw [if_pos heq, if_pos (hiff.mpr heq)]
    rfl
  · rw [if_neg heq, if_neg (mt hiff.mp heq)]

theorem Holds.withMethod (hu : u.symbols.Nodup) {k : Nat} {name : String}
    (hk : u.symbols[k]? = some name) {method : Method} {entry : Entry}
    (hsame : SameMethod u t method entry) :
    Holds u t { s with methods := s.methods.insert name method }
      { m with methods := m.methods.setIfInBounds k (some entry) } := by
  refine ⟨fun j other hj => ?_, h.globals, h.visibility, h.output, h.mirrors, h.envs_size, h.envs,
    h.closures_size, h.closures, h.procs⟩
  obtain ⟨old, hold, -⟩ := h.methods k name hk
  obtain ⟨there, hthere, hrel⟩ := h.methods j other hj
  refine ⟨_, getElem?_set_of_some hold hthere, ?_⟩
  have hiff := index_eq_iff hu hk hj
  dsimp only
  rw [Table.get?_insert]
  by_cases heq : name = other
  · rw [if_pos heq, if_pos (hiff.mpr heq)]
    exact .some hsame
  · rw [if_neg heq, if_neg (mt hiff.mp heq)]
    exact hrel

theorem Holds.withVisibility (visibility : Visibility) :
    Holds u t { s with visibility } { m with visibility } :=
  ⟨h.methods, h.globals, rfl, h.output, h.mirrors, h.envs_size, h.envs, h.closures_size, h.closures,
    h.procs⟩

theorem Holds.withOutput (text : String) :
    Holds u t { s with output := s.output.put text } { m with output := m.output.put text } :=
  ⟨h.methods, h.globals, h.visibility, by rw [h.output], h.mirrors, h.envs_size, h.envs,
    h.closures_size, h.closures, h.procs⟩

/-- A block has been captured. -/
theorem Holds.withProc {closure : Closure} {captured : Captured} {env : Env}
    (hsame : SameBlock u t closure captured) (henv : s.envs.get? closure.env = some env)
    (hopens : Op.opensBlock t env.lexical closure.scope = true)
    (hblock : ∀ block, closure.block = some block → block < s.procs.size) :
    Holds u t { s with procs := s.procs.push closure }
      { m with closures := m.closures.push captured } := by
  refine ⟨h.methods, h.globals, h.visibility, h.output, h.mirrors, h.envs_size, h.envs, ?_,
    fun id other hid => ?_, fun id other hid => ?_⟩
  · rw [Array.size_push, Array.size_push, h.closures_size]
  · have hid : (s.procs.push closure)[id]? = some other := hid
    rw [Array.getElem?_push] at hid ⊢
    rw [h.closures_size]
    split at hid
    · rename_i heq
      cases hid
      exact ⟨captured, if_pos heq, hsame⟩
    · rename_i hne
      rw [if_neg hne]
      exact h.closures id other hid
  · have hid : (s.procs.push closure)[id]? = some other := hid
    rw [Array.getElem?_push] at hid
    have hmore : ∀ n, n < s.procs.size → n < (s.procs.push closure).size := fun n hn => by
      rw [Array.size_push]
      omega
    split at hid
    · cases hid
      exact ⟨⟨env, henv, hopens⟩, fun block hb => hmore _ (hblock block hb)⟩
    · obtain ⟨hthere, hother⟩ := h.procs id other hid
      exact ⟨hthere, fun block hb => hmore _ (hother block hb)⟩

/-- A call gets its variables: they are nil at first. -/
theorem Holds.enter (ht : t.Sound) {owned : Scope} {scope : ScopeId} {parent : Option EnvId}
    (hget : t.get? scope = some owned) (hcan : CanEnter t s owned parent) (frames : List Frame) :
    Holds u t { s with envs := s.envs.push (freshEnv owned scope parent), frames }
      (m.entered parent owned.vars.size) := by
  refine ⟨h.methods, h.globals, h.visibility, h.output, h.mirrors.push (hcan.mirrors hget), ?_,
    fun id env hid => ?_, h.closures_size, h.closures, fun id closure hid => ?_⟩
  · show (m.envs.push _).size = (s.envs.envs.push _).size
    rw [Array.size_push, Array.size_push, h.envs_size]
  · have hid : (s.envs.push (freshEnv owned scope parent)).get? id = some env := hid
    show ∃ own, (m.envs.push _)[id.index]? = some own ∧ _
    rw [EnvStore.get?_push] at hid
    rw [Array.getElem?_push, h.envs_size]
    have hindex : id = s.envs.next ↔ id.index = s.envs.envs.size := by
      rw [EnvStore.next, ← EnvId.mk.injEq]
    split at hid
    · rename_i heq
      cases hid
      rw [if_pos (hindex.mp heq)]
      refine ⟨_, rfl, rfl, fun scope' name k hscope hk => ?_⟩
      obtain rfl := Option.some.inj (hget.symm.trans hscope)
      have hlt : k.toNat < owned.vars.size := ht.slots scope.index owned hget (name, k)
        ((Table.findEntry_eq_some_iff owned.vars.distinct).mp hk)
      show (Array.replicate owned.vars.size Value.nil)[k.toNat]? =
        (owned.vars.map fun _ => Value.nil).get? name
      rw [Table.get?_map, hk, Array.getElem?_replicate, if_pos hlt]
      rfl
    · rename_i hne
      rw [if_neg (mt hindex.mpr hne)]
      exact h.envs id env hid
  · obtain ⟨⟨env, henv, hopens⟩, hblock⟩ := h.procs id closure hid
    obtain ⟨env', henv', hlex⟩ := EnvStore.keeps_push s.envs (freshEnv owned scope parent) _ _ henv
    exact ⟨⟨env', henv', by rw [hlex]; exact hopens⟩, hblock⟩

/-- A variable has been assigned. No other variable of the scope has its slot. -/
theorem Holds.assign (hsep : t.Separate) {owner : EnvId} {env : Env} {own : Slots} {scope : Scope}
    {name : String} {k : UInt64} (hget : s.envs.get? owner = some env)
    (hown : m.envs[owner.index]? = some own) (hscope : t.get? env.lexical = some scope)
    (hk : scope.vars.get? name = some k) (hname : env.vars.contains name = true) (v : Value) :
    Holds u t { s with envs := s.envs.assign owner name v }
      { m with envs := (m.envs.setIfInBounds owner.index
          { own with vars := own.vars.setIfInBounds k.toNat v }) } := by
  refine ⟨h.methods, h.globals, h.visibility, h.output, h.mirrors.assign hget hname v, ?_,
    fun id env' hid => ?_, h.closures_size, h.closures, fun id closure hid => ?_⟩
  · show (m.envs.setIfInBounds _ _).size = (s.envs.envs.modify _ _).size
    rw [Array.size_setIfInBounds, Array.size_modify, h.envs_size]
  · have hid : (s.envs.assign owner name v).get? id = some env' := hid
    rw [EnvStore.get?_assign] at hid
    obtain ⟨old, hold, rfl⟩ := Option.map_eq_some_iff.mp hid
    obtain ⟨there, hthere, hsame⟩ := h.envs id old hold
    refine ⟨_, getElem?_set_of_some hown hthere, ?_⟩
    by_cases heq : id = owner
    · subst heq
      obtain rfl := Option.some.inj (hget.symm.trans hold)
      obtain rfl := Option.some.inj (hown.symm.trans hthere)
      rw [if_pos rfl, if_pos rfl]
      refine ⟨hsame.parent, fun scope' other j hscope' hj => ?_⟩
      obtain rfl := Option.some.inj (hscope.symm.trans hscope')
      obtain ⟨old, hold⟩ := Option.isSome_iff_exists.mp hname
      have hslot : own.vars[k.toNat]? = some old :=
        (hsame.slots scope name k hscope hk).trans hold
      dsimp only
      rw [Table.get?_insert, Array.getElem?_setIfInBounds]
      by_cases hother : name = other
      · subst hother
        obtain rfl := Option.some.inj (hk.symm.trans hj)
        rw [if_pos rfl, if_pos rfl, if_pos (Array.getElem?_eq_some_iff.mp hslot).1]
      · have hne : k.toNat ≠ j.toNat := fun he => by
          obtain rfl := UInt64.toNat_inj.mp he
          exact hother (hsep _ scope name other k hscope hk hj)
        rw [if_neg hother, if_neg hne]
        exact hsame.slots scope other j hscope hj
    · have hne : owner.index ≠ id.index := fun he => heq (by cases id; cases owner; simp_all)
      rw [if_neg heq, if_neg hne]
      exact hsame
  · obtain ⟨⟨env', henv', hopens⟩, hblock⟩ := h.procs id closure hid
    obtain ⟨env'', henv'', hlex⟩ := EnvStore.keeps_assign s.envs owner name v _ _ henv'
    exact ⟨⟨env'', henv'', by rw [hlex]; exact hopens⟩, hblock⟩

/-- The variables of an environment that is `d` parents further out are as far out. -/
theorem Holds.owner_of_outward {id owner : EnvId} {d : Nat} (ho : s.envs.Outward id d owner) :
    m.owner id d = some owner := by
  induction ho with
  | here => rfl
  | @parent id next owner env d hget hnext _ ih =>
    obtain ⟨own, hown, hsame⟩ := h.envs id env hget
    have hp : own.parent = some next := hsame.parent.trans hnext
    simp only [Memory.owner, hown, hp, Option.bind_eq_bind, Option.bind_some]
    exact ih

end

/-! ## The call that is going on -/

/-- A call: its frame and those around it, the scope that it runs, the operands of its callers, and
the state in which it began. -/
structure Call where
  frame : Frame
  outer : List Frame
  home : ScopeId
  below : List Value
  entry : State
  base_eq : frame.base = below.length

/-- What the functions of a unit know of a call. -/
def Call.context (c : Call) : Context :=
  { self := c.frame.self, args := c.frame.args, block := c.frame.block, env := c.frame.env }

variable {c : Call} {values values' : List Value}

/-- The call is going on, and its own operands are `values`. -/
structure Runs (u : CUnit) (t : ScopeTree) (c : Call) (values : List Value) (s : State)
    (m : Memory) : Prop where
  holds : Holds u t s m
  frames : s.frames = c.frame :: c.outer
  env : ∃ env, s.envs.get? c.frame.env = some env ∧ env.lexical = c.home
  block : ∀ id, c.frame.block = some id → id < s.procs.size
  later : Later c.entry s
  stack : s.stack = values ++ c.below

theorem procs_size_le (h : Later s s') : s.procs.size ≤ s'.procs.size := by
  by_contra hlt
  have hlast : s.procs[s'.procs.size]? = some s.procs[s'.procs.size] :=
    Array.getElem?_eq_getElem (by omega)
  have hthere := h.procs _ _ hlast
  rw [Array.getElem?_size] at hthere
  cases hthere

/-- What the call has done changes neither the calls nor what was captured. -/
theorem Runs.update (h : Runs u t c values s m) (hholds : Holds u t s' m')
    (hframes : s'.frames = s.frames) (hlater : Later s s') (hstack : s'.stack = values' ++ c.below) :
    Runs u t c values' s' m' where
  holds := hholds
  frames := hframes.trans h.frames
  env := by
    obtain ⟨env, hget, hlex⟩ := h.env
    obtain ⟨env', hget', hlex'⟩ := hlater.envs _ _ hget
    exact ⟨env', hget', hlex'.trans hlex⟩
  block := fun id hid => Nat.lt_of_lt_of_le (h.block id hid) (procs_size_le hlater)
  later := h.later.trans hlater
  stack := hstack

/-- Only the operands, the temps and the count of steps have changed. -/
theorem Runs.restack (h : Runs u t c values s m)
    (hs : ∃ steps, s' = { s with stack := values' ++ c.below, steps })
    (hm : ∃ temps, m' = { m with temps }) : Runs u t c values' s' m' := by
  obtain ⟨steps, rfl⟩ := hs
  exact h.update (h.holds.congr rfl rfl rfl rfl rfl rfl hm) rfl (.of_eq rfl rfl) rfl

theorem Runs.withTemps (h : Runs u t c values s m) (temps : Temps) :
    Runs u t c values s { m with temps } :=
  h.restack ⟨s.steps, by rw [← h.stack]⟩ ⟨temps, rfl⟩

theorem Runs.base (h : Runs u t c values s m) : s.base = c.below.length := by
  rw [Machine.State.base_eq_floorOf, h.frames, ← c.base_eq]
  rfl

theorem Runs.base_le (h : Runs u t c values s m) (values' : List Value) :
    s.base ≤ (values' ++ c.below).length := by
  rw [h.base, List.length_append]
  exact Nat.le_add_left _ _

/-! ## Variables -/

/-- **Both sides find a variable that is bound in the text**, in environments of the same number. -/
theorem Runs.lookup (h : Runs u t c values s m) (ht : t.Proper) {name : String} {localOnly : Bool}
    {scope : ScopeId} {found : Resolved}
    (hfound : t.resolve? scope name localOnly = some (.ok found))
    (hscope : t.hoistTarget? scope = some c.home) :
    ∃ owner env own owned, s.envs.resolve c.frame.env name localOnly = .ok (owner, found.depth) ∧
      s.envs.lexical owner = found.scope ∧ s.envs.get? owner = some env ∧
      env.vars.contains name = true ∧ m.owner c.frame.env found.depth = some owner ∧
      m.envs[owner.index]? = some own ∧ SameVars t env own ∧ t.get? env.lexical = some owned ∧
      owned.vars.get? name = some found.slot := by
  obtain ⟨top, htop, hlex⟩ := h.env
  rw [← hlex] at hscope
  have hb := (ScopeTree.resolve?_eq_ok_iff ht.toSound).mp hfound
  obtain ⟨owner, hrun, hscopeOf⟩ := resolve_of_binds ht.toSound h.holds.mirrors hb htop hscope
  obtain ⟨houtward, env, henv, hname⟩ := EnvStore.outward_of_resolve hrun
  obtain ⟨own, hown, hsame⟩ := h.holds.envs owner env henv
  obtain ⟨owned, howned, -, hslot⟩ := hb.owner
  have hlexical : env.lexical = found.scope := by
    rw [← hscopeOf, EnvStore.lexical_of_get? henv]
  refine ⟨owner, env, own, owned, hrun, hscopeOf, henv, hname,
    h.holds.owner_of_outward houtward, hown, hsame, ?_, hslot⟩
  rw [hlexical]
  exact howned

end StackCode.Native
