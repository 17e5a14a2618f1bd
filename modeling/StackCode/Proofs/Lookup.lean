import StackCode.Machine.Env
import StackCode.Proofs.ScopeTree

/-!
# Lookup in the text and in a run

An environment *mirrors* a scope when it holds the variables of the scope, and when its parent
mirrors the scope that owns what stands around the scope. A search for a name in mirrored
environments goes the same way as the search in the scopes, and passes as many blocks
(`resolve_of_binds`).

Calls make environments that mirror (`EnvStore.Mirrors.push`), and assignments leave them so
(`EnvStore.Mirrors.assign`).
-/

namespace StackCode

variable {t : ScopeTree} {store : EnvStore} {id owner : EnvId} {env : Env} {scope : Scope}
  {name : String} {localOnly : Bool}

/-! ## The store -/

theorem Table.get?_map {α β : Type} (f : α → β) (t : Table α) (name : String) :
    (t.map f).get? name = (t.get? name).map f := by
  show findEntry name (t.entries.map fun e => (e.1, f e.2)) = (findEntry name t.entries).map f
  induction t.entries with
  | nil => rfl
  | cons e rest ih =>
    simp only [List.map_cons, findEntry]
    split
    · rfl
    · exact ih

namespace EnvStore

theorem index_lt_size (h : store.get? id = some env) : id.index < store.envs.size :=
  (Array.getElem?_eq_some_iff.mp h).1

/-- The new environment is at the next number, and the others stay. -/
theorem get?_push (store : EnvStore) (env : Env) (id : EnvId) :
    (store.push env).get? id = if id = store.next then some env else store.get? id := by
  unfold get? push next
  rw [Array.getElem?_push]
  congr 1
  rw [EnvId.mk.injEq]

/-- An assignment changes one variable of one environment. -/
theorem get?_assign (store : EnvStore) (owner : EnvId) (name : String) (v : Value) (id : EnvId) :
    (store.assign owner name v).get? id = (store.get? id).map fun env =>
      if id = owner then { env with vars := env.vars.insert name v } else env := by
  unfold get? assign
  rw [Array.getElem?_modify]
  by_cases h : owner = id
  · subst h
    simp
  · have hne : owner.index ≠ id.index := fun he => h (by cases owner; cases id; simp_all)
    simp [hne, Ne.symm h]

theorem lexical_of_get? (h : store.get? id = some env) : store.lexical id = env.lexical := by
  simp [lexical, h]

/-- Every environment is still there and runs the scope that it ran. -/
def Keeps (store store' : EnvStore) : Prop :=
  ∀ id env, store.get? id = some env → ∃ env', store'.get? id = some env' ∧
    env'.lexical = env.lexical

theorem keeps_push (store : EnvStore) (env : Env) : store.Keeps (store.push env) := by
  intro id old h
  refine ⟨old, ?_, rfl⟩
  have hne : id ≠ store.next := by
    rintro rfl
    exact absurd (index_lt_size h) (Nat.lt_irrefl _)
  rw [get?_push, if_neg hne, h]

theorem keeps_assign (store : EnvStore) (owner : EnvId) (name : String) (v : Value) :
    store.Keeps (store.assign owner name v) := by
  intro id old h
  rw [get?_assign, h]
  refine ⟨_, rfl, ?_⟩
  split <;> rfl

/-- `owner` is `d` parents further out than `id`. -/
inductive Outward (store : EnvStore) : EnvId → Nat → EnvId → Prop
  | here (id : EnvId) : Outward store id 0 id
  | parent {id next owner : EnvId} {env : Env} {d : Nat} (hget : store.get? id = some env)
      (hnext : env.parent = some next) (h : Outward store next d owner) :
      Outward store id (d + 1) owner

/-- A search goes from parent to parent, and ends at an environment that holds the name. -/
theorem outward_of_searchWithin {n depth depth' : Nat}
    (h : store.searchWithin name localOnly n id depth = some (owner, depth')) :
    (∃ d, depth' = depth + d ∧ store.Outward id d owner) ∧
      ∃ env, store.get? owner = some env ∧ env.vars.contains name = true := by
  induction n generalizing id depth with
  | zero => cases h
  | succ n ih =>
    rw [searchWithin] at h
    obtain ⟨env, henv, h⟩ := Option.bind_eq_some_iff.mp h
    split at h
    · rename_i hc
      cases h
      exact ⟨⟨0, rfl, .here _⟩, env, henv, hc⟩
    · obtain ⟨next, hnext, h⟩ := Option.bind_eq_some_iff.mp h
      split at h
      · obtain ⟨⟨d, rfl, hd⟩, hholds⟩ := ih h
        exact ⟨⟨d + 1, by omega, .parent henv hnext hd⟩, hholds⟩
      · cases h

/-- A search that succeeds has gone outward to the owner of the name. -/
theorem outward_of_resolve {depth : Nat}
    (h : store.resolve id name localOnly = .ok (owner, depth)) :
    store.Outward id depth owner ∧
      ∃ env, store.get? owner = some env ∧ env.vars.contains name = true := by
  unfold resolve at h
  split at h
  · rename_i hsearch
    cases h
    obtain ⟨⟨d, rfl, hd⟩, hholds⟩ := outward_of_searchWithin hsearch
    rw [Nat.zero_add]
    exact ⟨hd, hholds⟩
  · cases h

end EnvStore

/-! ## Mirrors -/

/-- The environment mirrors the scope that it runs. -/
structure Env.Mirrors (t : ScopeTree) (store : EnvStore) (id : EnvId) (env : Env) (scope : Scope) :
    Prop where
  runs : t.get? env.lexical = some scope
  owns : scope.hoist = false
  block : env.block = scope.block
  names : ∀ name, env.vars.contains name = scope.vars.contains name
  /-- A parent is older, and mirrors what is around the block. -/
  parent : ∀ outer, scope.block = true → scope.outer = some outer → ∃ parent penv,
    env.parent = some parent ∧ parent.index < id.index ∧ store.get? parent = some penv ∧
    t.hoistTarget? outer = some penv.lexical

/-- All environments mirror the scopes that they run. -/
def EnvStore.Mirrors (t : ScopeTree) (store : EnvStore) : Prop :=
  ∀ id env, store.get? id = some env → ∃ scope, env.Mirrors t store id scope

/-- Mirroring depends on the scopes that environments run, not on values. -/
theorem Env.Mirrors.keeps {store' : EnvStore} (h : env.Mirrors t store id scope)
    (hk : store.Keeps store') : env.Mirrors t store' id scope where
  runs := h.runs
  owns := h.owns
  block := h.block
  names := h.names
  parent := by
    intro outer hb ho
    obtain ⟨parent, penv, hp, hlt, hget, htarget⟩ := h.parent outer hb ho
    obtain ⟨penv', hget', hlex⟩ := hk parent penv hget
    exact ⟨parent, penv', hp, hlt, hget', by rw [hlex]; exact htarget⟩

/-- A new environment that mirrors its scope may join the others. -/
theorem EnvStore.Mirrors.push (h : store.Mirrors t) (henv : env.Mirrors t store store.next scope) :
    (store.push env).Mirrors t := by
  intro id env' hget
  rw [get?_push] at hget
  split at hget
  · rename_i heq
    cases hget
    subst heq
    exact ⟨scope, henv.keeps (keeps_push store env)⟩
  · obtain ⟨scope', hm⟩ := h id env' hget
    exact ⟨scope', hm.keeps (keeps_push store env)⟩

/-- An assignment to a variable that is there. -/
theorem EnvStore.Mirrors.assign (h : store.Mirrors t) (hget : store.get? owner = some env)
    (hname : env.vars.contains name = true) (v : Value) :
    (store.assign owner name v).Mirrors t := by
  intro id env' hget'
  rw [get?_assign] at hget'
  obtain ⟨old, hold, rfl⟩ := Option.map_eq_some_iff.mp hget'
  obtain ⟨scope, hm⟩ := h id old hold
  have hm' := hm.keeps (keeps_assign store owner name v)
  refine ⟨scope, ?_⟩
  split
  · rename_i heq
    subst heq
    rw [hget] at hold
    cases hold
    refine ⟨hm'.runs, hm'.owns, hm'.block, fun other => ?_, hm'.parent⟩
    rw [← hm'.names]
    simp only [Table.contains, Table.get?_insert]
    split
    · rename_i heq
      subst heq
      exact hname.symm
    · rfl
  · exact hm'

/-! ## Both searches -/

/-- The search in mirrored environments follows the search in the scopes. -/
theorem searchWithin_of_binds (ht : t.Sound) (hm : store.Mirrors t) {s r : ScopeId} {d : Nat}
    {k : UInt64} (hb : ScopeTree.Binds t name localOnly s d r k) :
    ∀ (n depth : Nat) (id : EnvId) (env : Env), store.get? id = some env →
      t.hoistTarget? s = some env.lexical → id.index < n → ∃ owner,
        store.searchWithin name localOnly n id depth = some (owner, depth + d) ∧
        store.lexical owner = r := by
  induction hb with
  | @here s scope k hs hh hk =>
    intro n depth id env hget htarget hn
    obtain ⟨n, rfl⟩ : ∃ m, n = m + 1 := ⟨n - 1, by omega⟩
    obtain ⟨scope', hmirror⟩ := hm id env hget
    rw [ScopeTree.hoistTarget?_of_not_hoist hs hh] at htarget
    obtain rfl := Option.some.inj htarget
    obtain rfl := Option.some.inj (hs.symm.trans hmirror.runs)
    -- the environment runs this very scope, and holds the names that the scope declares
    have hname : env.vars.contains name = true := by
      rw [hmirror.names]
      simp [Table.contains, hk]
    exact ⟨id, by simp [EnvStore.searchWithin, hget, hname], EnvStore.lexical_of_get? hget⟩
  | hoisted hs hh ho _ ih =>
    -- a hoisted scope has no environment of its own
    intro n depth id env hget htarget hn
    rw [ScopeTree.hoistTarget?_of_hoist ht hs hh ho] at htarget
    exact ih n depth id env hget htarget hn
  | @outward s o r scope d k hs hh hn' hblock hl ho _ ih =>
    intro n depth id env hget htarget hn
    obtain ⟨n, rfl⟩ : ∃ m, n = m + 1 := ⟨n - 1, by omega⟩
    obtain ⟨scope', hmirror⟩ := hm id env hget
    rw [ScopeTree.hoistTarget?_of_not_hoist hs hh] at htarget
    obtain rfl := Option.some.inj htarget
    obtain rfl := Option.some.inj (hs.symm.trans hmirror.runs)
    have hname : env.vars.contains name = false := by
      rw [hmirror.names]
      simp [Table.contains, hn']
    -- the parent is an older environment, so that one less suffices as a bound for it
    obtain ⟨parent, penv, hp, hlt, hpget, hptarget⟩ := hmirror.parent o hblock ho
    obtain ⟨owner, hsearch, hlex⟩ := ih n (depth + 1) parent penv hpget hptarget (by omega)
    refine ⟨owner, ?_, hlex⟩
    subst hl
    simp [EnvStore.searchWithin, hget, hname, hp, hmirror.block, hblock, hsearch]
    omega

/-- **A name that is bound in the text is found in a run**, in an environment that runs the
declaring scope and as many blocks further out. -/
theorem resolve_of_binds (ht : t.Sound) (hm : store.Mirrors t) {s r : ScopeId} {d : Nat}
    {k : UInt64}
    (hb : ScopeTree.Binds t name localOnly s d r k) (hget : store.get? id = some env)
    (htarget : t.hoistTarget? s = some env.lexical) : ∃ owner,
      store.resolve id name localOnly = .ok (owner, d) ∧ store.lexical owner = r := by
  obtain ⟨owner, hsearch, hlex⟩ := searchWithin_of_binds ht hm hb store.envs.size 0 id env hget
    htarget (EnvStore.index_lt_size hget)
  rw [Nat.zero_add] at hsearch
  exact ⟨owner, by simp [EnvStore.resolve, hsearch], hlex⟩

end StackCode
