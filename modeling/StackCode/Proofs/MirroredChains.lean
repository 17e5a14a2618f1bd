import StackCode.Proofs.Lookup
import StackCode.Proofs.Visible

/-!
# Chains of environments

A call of a block sees its variables through a chain of environments: its own, that of the body in
which the block was written, and so on outwards. The chain *mirrors* the scopes when each
environment was made for the scope that owns what stands around the one before. Nothing else is
asked: the tree may come from anywhere as long as it is valid, and the store may hold other
environments that mirror nothing.

Along such a chain the search in the environments and the search in the scopes are one search
(`mirrored_lookups_agree`): both find the variable the same number of blocks further out, or neither
finds it. The search in the scopes passes hoisted scopes, which have no environments.
-/

namespace StackCode

open ScopeTree (Binds Bound Hoists)

variable {t : ScopeTree} {s r o : ScopeId} {scope : Scope} {name : String} {localOnly : Bool}

/-! ## Searches in a valid tree -/

/-- A search that gives up says what it sought, and from where. -/
theorem ScopeTree.error_of_resolveWithin {start : ScopeId} {e : UnknownVariable} (n depth : Nat)
    (h : t.resolveWithin start name localOnly n s depth = some (.error e)) : e = ⟨name, start⟩ := by
  induction n generalizing s depth with
  | zero => cases h
  | succ n ih =>
    rw [resolveWithin] at h
    obtain ⟨scope, -, h⟩ := Option.bind_eq_some_iff.mp h
    cases hh : scope.hoist with
    | true =>
      cases ho : scope.outer with
      | none =>
        simp only [hh, ho, if_true, Option.some.injEq, Except.error.injEq] at h
        exact h.symm
      | some o =>
        simp only [hh, ho, if_true] at h
        exact ih depth h
    | false =>
      cases hk : scope.vars.get? name with
      | some slot => simp [hh, hk] at h
      | none =>
        cases ho : scope.outer with
        | none =>
          simp only [hh, hk, ho, Bool.false_eq_true, if_false, Option.some.injEq,
            Except.error.injEq] at h
          exact h.symm
        | some o =>
          simp only [hh, hk, ho, Bool.false_eq_true, if_false] at h
          split at h
          · exact ih (depth + 1) h
          · exact (Except.error.inj (Option.some.inj h)).symm

/-- In a valid tree a name is found, or the search gives up. -/
theorem ScopeTree.resolve?_of_not_bound (ht : t.Sound) (hs : t.contains s = true)
    (h : ¬ Bound t s name localOnly) :
    t.resolve? s name localOnly = some (.error ⟨name, s⟩) := by
  obtain ⟨answer, hanswer⟩ := exists_resolve? ht hs name localOnly
  cases answer with
  | ok found => exact absurd ⟨_, _, _, (resolve?_eq_ok_iff ht).mp hanswer⟩ h
  | error e =>
    obtain rfl := error_of_resolveWithin t.size 0 hanswer
    exact hanswer

/-- The target of hoisting is reached by the links, unless it is a hoisted scope that has nowhere to
hoist to. -/
theorem ScopeTree.hoists_of_hoistTarget? (h : t.hoistTarget? s = some r)
    (hr : t.get? r = some scope) (hh : scope.hoist = false) : Hoists t s r := by
  unfold hoistTarget? at h
  generalize t.size = n at h
  induction n generalizing s with
  | zero => cases h
  | succ n ih =>
    rw [hoistWithin] at h
    obtain ⟨first, hs, h⟩ := Option.bind_eq_some_iff.mp h
    split at h
    · rename_i o hhoist houter
      exact .outward hs hhoist houter (ih h)
    · cases h
      exact .self hr hh

/-- A scope that owns its variables binds its own ones, and those that are seen through it. -/
theorem ScopeTree.bound_owner_iff (hs : t.get? s = some scope) (hh : scope.hoist = false) :
    Bound t s name localOnly ↔ scope.vars.contains name = true ∨
      scope.block = true ∧ localOnly = false ∧
        ∃ o, scope.outer = some o ∧ Bound t o name localOnly := by
  constructor
  · rintro ⟨d, r, k, hb⟩
    cases hb with
    | here hs' _ hk =>
      obtain rfl := Option.some.inj (hs.symm.trans hs')
      exact .inl (by rw [Table.contains, hk]; rfl)
    | hoisted hs' hh' =>
      obtain rfl := Option.some.inj (hs.symm.trans hs')
      exact absurd (hh.symm.trans hh') Bool.false_ne_true
    | outward hs' _ _ hblock hl ho hb =>
      obtain rfl := Option.some.inj (hs.symm.trans hs')
      exact .inr ⟨hblock, hl, _, ho, _, _, _, hb⟩
  · rintro (hc | ⟨hblock, hl, o, ho, d, r, k, hb⟩)
    · obtain ⟨k, hk⟩ := Option.isSome_iff_exists.mp hc
      exact ⟨0, s, k, .here hs hh hk⟩
    · cases hk : scope.vars.get? name with
      | some k => exact ⟨0, s, k, .here hs hh hk⟩
      | none => exact ⟨d + 1, r, k, .outward hs hh hk hblock hl ho hb⟩

/-! ## Stores -/

variable {store : EnvStore} {id : EnvId} {env : Env} {rest : List EnvId}

/-- The stores in which every environment was made for a scope of the tree, with a parent that was
there already or none, and in which variables have changed by assignment only. -/
inductive EnvStore.Made (t : ScopeTree) : EnvStore → Prop
  | empty : Made t {}
  | new {store : EnvStore} {lexical : ScopeId} {parent : Option EnvId} {env : Env}
      (h : Made t store) (hparent : ∀ id ∈ parent, ∃ outer, store.get? id = some outer)
      (henv : Env.ofScope? t lexical parent = some env) : Made t (store.push env)
  | assign {store store' : EnvStore} {id : EnvId} {name : String} {v : Value} {localOnly : Bool}
      (h : Made t store) (hwrite : store.write id name v localOnly = .ok store') : Made t store'

/-- The environment has the variables of the scope that it was made for, and its parent is older. -/
structure Env.Instantiates (t : ScopeTree) (id : EnvId) (env : Env) (scope : Scope) : Prop where
  runs : t.get? env.lexical = some scope
  block : env.block = scope.block
  names : ∀ name, env.vars.contains name = scope.vars.contains name
  older : ∀ parent ∈ env.parent, parent.index < id.index

theorem Env.instantiates_ofScope? {lexical : ScopeId} {parent : Option EnvId}
    (h : Env.ofScope? t lexical parent = some env) (hparent : ∀ p ∈ parent, p.index < id.index) :
    ∃ scope, env.Instantiates t id scope := by
  obtain ⟨scope, hget, h⟩ := Option.bind_eq_some_iff.mp h
  cases h
  refine ⟨scope, hget, rfl, fun name => ?_, hparent⟩
  rw [Table.contains, Table.get?_map, Option.isSome_map]
  rfl

theorem Table.contains_insert {α : Type} {vars : Table α} {x : String} {v : α}
    (h : vars.contains x = true) (name : String) :
    (vars.insert x v).contains name = vars.contains name := by
  rw [Table.contains, Table.get?_insert]
  split
  · rename_i heq
    exact heq ▸ h.symm
  · rfl

/-- **What was made for a scope goes on to have its variables.** -/
theorem EnvStore.Made.instantiates (hm : store.Made t) :
    ∀ {id env}, store.get? id = some env → ∃ scope, env.Instantiates t id scope := by
  induction hm with
  | empty => exact fun h => nomatch h
  | @new store _ _ made _ hparent henv ih =>
    intro id env hget
    rw [get?_push] at hget
    split at hget
    · rename_i heq
      obtain rfl := Option.some.inj hget
      refine Env.instantiates_ofScope? henv fun parent hp => ?_
      obtain ⟨outer, hold⟩ := hparent parent hp
      exact heq ▸ index_lt_size hold
    · exact ih hget
  | @assign store _ _ name v _ _ hwrite ih =>
    intro id env hget
    obtain ⟨⟨owner, depth⟩, hresolve, hassign⟩ := bind_eq_ok hwrite
    obtain rfl := Except.ok.inj hassign
    obtain ⟨-, found, hfound, hname⟩ := outward_of_resolve hresolve
    rw [get?_assign] at hget
    obtain ⟨old, hold, rfl⟩ := Option.map_eq_some_iff.mp hget
    obtain ⟨scope, hold'⟩ := ih hold
    refine ⟨scope, ?_⟩
    split
    · -- the variable that is assigned is there already
      rename_i heq
      subst heq
      obtain rfl := Option.some.inj (hfound.symm.trans hold)
      refine ⟨hold'.runs, hold'.block, fun other => ?_, hold'.older⟩
      rw [Table.contains_insert hname, hold'.names]
    · exact hold'

/-! ## Chains -/

/-- The environments `rest` around `id` mirror the scopes around the one that it was made for. No
environment was made for a hoisted scope. The parent of a block's environment was made for the scope
that owns what stands around the block; any other environment has no parent. -/
inductive EnvStore.Chain (t : ScopeTree) (store : EnvStore) : EnvId → List EnvId → Prop
  | last {id : EnvId} {env : Env} {scope : Scope} (hget : store.get? id = some env)
      (hs : t.get? env.lexical = some scope) (hh : scope.hoist = false)
      (hend : scope.block = false ∨ scope.outer = none) (hp : env.parent = none) :
      Chain t store id []
  | link {id next : EnvId} {env outer : Env} {scope : Scope} {o : ScopeId} {rest : List EnvId}
      (hget : store.get? id = some env) (hs : t.get? env.lexical = some scope)
      (hh : scope.hoist = false) (hblock : scope.block = true) (ho : scope.outer = some o)
      (hp : env.parent = some next) (hnext : store.get? next = some outer)
      (htarget : t.hoistTarget? o = some outer.lexical) (h : Chain t store next rest) :
      Chain t store id (next :: rest)

theorem EnvStore.Chain.exists_owner (h : store.Chain t id rest) :
    ∃ env scope, store.get? id = some env ∧ t.get? env.lexical = some scope ∧
      scope.hoist = false := by
  cases h with
  | last hget hs hh => exact ⟨_, _, hget, hs, hh⟩
  | link hget hs hh => exact ⟨_, _, hget, hs, hh⟩

/-- What the two searches come to: the variable is found at the same place of the chain, or nowhere.
The search in the environments has passed `depth` blocks already and may go through `n` of them. -/
def EnvStore.SearchesAgree (t : ScopeTree) (store : EnvStore) (name : String) (localOnly : Bool)
    (id : EnvId) (rest : List EnvId) (n depth : Nat) : Prop :=
  (∃ d owner k, Binds t name localOnly (store.lexical id) d (store.lexical owner) k ∧
    (id :: rest)[d]? = some owner ∧
    store.searchWithin name localOnly n id depth = some (owner, depth + d)) ∨
  ¬ Bound t (store.lexical id) name localOnly ∧
    store.searchWithin name localOnly n id depth = none

/-- A variable of the environment itself. -/
theorem EnvStore.searchesAgree_here {n depth : Nat} (hget : store.get? id = some env)
    (hi : env.Instantiates t id scope) (hh : scope.hoist = false)
    (hc : scope.vars.contains name = true) :
    store.SearchesAgree t name localOnly id rest (n + 1) depth := by
  obtain ⟨k, hk⟩ := Option.isSome_iff_exists.mp hc
  refine .inl ⟨0, id, k, ?_, rfl, by simp [searchWithin, hget, hi.names, hc]⟩
  rw [lexical_of_get? hget]
  exact .here hi.runs hh hk

/-- **Along a chain both searches are one.** The induction is on the chain: where the scope lets the
search pass, the environment does, and the next environment owns what the scope is in. -/
theorem EnvStore.Chain.searchesAgree (hm : store.Made t) (h : store.Chain t id rest) :
    ∀ n depth, id.index < n → store.SearchesAgree t name localOnly id rest n depth := by
  induction h with
  | @last id env scope hget hs hh hend hp =>
    intro n depth hn
    obtain ⟨n, rfl⟩ : ∃ m, n = m + 1 := ⟨n - 1, by omega⟩
    obtain ⟨scope', hi⟩ := hm.instantiates hget
    obtain rfl := Option.some.inj (hs.symm.trans hi.runs)
    have hlexical := lexical_of_get? hget
    cases hc : scope.vars.contains name with
    | true => exact searchesAgree_here hget hi hh hc
    | false =>
      refine .inr ⟨?_, by simp [searchWithin, hget, hi.names, hc, hp]⟩
      rw [hlexical, ScopeTree.bound_owner_iff hs hh, hc]
      rintro (h | ⟨hblock, -, o, ho, -⟩)
      · cases h
      · rcases hend with hend | hend
        · exact Bool.false_ne_true (hend.symm.trans hblock)
        · cases hend.symm.trans ho
  | @link id next env outer scope o rest hget hs hh hblock ho hp hnext htarget hrest ih =>
    intro n depth hn
    obtain ⟨n, rfl⟩ : ∃ m, n = m + 1 := ⟨n - 1, by omega⟩
    obtain ⟨scope', hi⟩ := hm.instantiates hget
    obtain rfl := Option.some.inj (hs.symm.trans hi.runs)
    have hlexical := lexical_of_get? hget
    cases hc : scope.vars.contains name with
    | true => exact searchesAgree_here hget hi hh hc
    | false =>
      have hbound : Bound t env.lexical name localOnly ↔ _ := ScopeTree.bound_owner_iff hs hh
      rw [hc] at hbound
      cases localOnly with
      | true =>
        refine .inr ⟨?_, by simp [searchWithin, hget, hi.names, hc]⟩
        rw [hlexical, hbound]
        rintro (h | ⟨-, h, -⟩)
        · cases h
        · cases h
      | false =>
        -- the parent is older, so that one less suffices as a bound for it
        have hlt := hi.older next hp
        have hpass : store.searchWithin name false (n + 1) id depth =
            store.searchWithin name false n next (depth + 1) := by
          simp [searchWithin, hget, hi.names, hc, hp, hi.block, hblock]
        obtain ⟨outer', oscope, hnext', hos, hoh⟩ := hrest.exists_owner
        obtain rfl := Option.some.inj (hnext.symm.trans hnext')
        have hhoists : Hoists t o (store.lexical next) := by
          rw [lexical_of_get? hnext]
          exact ScopeTree.hoists_of_hoistTarget? htarget hos hoh
        rcases ih n (depth + 1) (by omega) with ⟨d, owner, k, hb, howner, hfound⟩ | ⟨hnot, hfound⟩
        · have hk : scope.vars.get? name = none := by
            refine Option.not_isSome_iff_eq_none.mp ?_
            rw [← Table.contains, hc]
            exact Bool.false_ne_true
          refine .inl ⟨d + 1, owner, k, ?_, howner, ?_⟩
          · rw [hlexical]
            exact .outward hs hh hk hblock rfl ho (hhoists.binds_iff.mpr hb)
          · rw [hpass, hfound, Nat.add_assoc, Nat.add_comm 1 d]
        · refine .inr ⟨?_, hpass.trans hfound⟩
          rw [hlexical, hbound]
          rintro (h | ⟨-, -, o', ho', d, r, k, hb⟩)
          · cases h
          · obtain rfl := Option.some.inj (ho.symm.trans ho')
            exact hnot ⟨d, r, k, hhoists.binds_iff.mp hb⟩

/-- **The text and the run look a variable up alike on every mirrored chain.** In a valid tree the
search from a scope finds a variable `d` blocks further out exactly when the search from the chain
finds it in its environment number `d`, and that environment was made for the scope which declares
the variable. Otherwise both searches name the variable as unknown, each with the scope that it
began at. -/
theorem mirrored_lookups_agree (hvalid : t.validate = .ok ()) (hm : store.Made t)
    (hchain : store.Chain t id rest) (hs : t.hoistTarget? s = some (store.lexical id))
    (name : String) (localOnly : Bool) :
    (∀ r d, (∃ k, t.resolve? s name localOnly = some (.ok ⟨r, d, k⟩)) ↔
      ∃ owner, (id :: rest)[d]? = some owner ∧
        store.resolve id name localOnly = .ok (owner, d) ∧ store.lexical owner = r) ∧
    ((¬ ∃ found, t.resolve? s name localOnly = some (.ok found)) →
      t.resolve? s name localOnly = some (.error ⟨name, s⟩) ∧
      store.resolve id name localOnly = .error ⟨name, store.lexical id⟩) := by
  have ht := ScopeTree.validate_eq_ok_iff.mp hvalid
  obtain ⟨env, scope, hget, hscope, hh⟩ := hchain.exists_owner
  have hhoists : Hoists t s (store.lexical id) := by
    refine ScopeTree.hoists_of_hoistTarget? hs ?_ hh
    rw [EnvStore.lexical_of_get? hget]
    exact hscope
  have hagree : store.SearchesAgree t name localOnly id rest store.envs.size 0 :=
    hchain.searchesAgree hm store.envs.size 0 (EnvStore.index_lt_size hget)
  rcases hagree with ⟨d, owner, k, hb, howner, hfound⟩ | ⟨hnot, hfound⟩
  · have htext : t.resolve? s name localOnly = some (.ok ⟨store.lexical owner, d, k⟩) :=
      (ScopeTree.resolve?_eq_ok_iff ht).mpr (hhoists.binds_iff.mpr hb)
    have hrun : store.resolve id name localOnly = .ok (owner, d) := by
      rw [EnvStore.resolve, hfound, Nat.zero_add]
    refine ⟨fun r d' => ?_, fun h => absurd ⟨_, htext⟩ h⟩
    rw [htext, hrun]
    constructor
    · rintro ⟨k', h⟩
      cases h
      exact ⟨owner, howner, rfl, rfl⟩
    · rintro ⟨owner', -, h, rfl⟩
      cases h
      exact ⟨k, rfl⟩
  · have hunbound : ¬ Bound t s name localOnly := by
      rintro ⟨d, r, k, hb⟩
      exact hnot ⟨d, r, k, hhoists.binds_iff.mp hb⟩
    have htext := ScopeTree.resolve?_of_not_bound ht
      (ScopeTree.contains_of_hoistTarget? hs) hunbound
    have hrun : store.resolve id name localOnly = .error ⟨name, store.lexical id⟩ := by
      rw [EnvStore.resolve, hfound]
    refine ⟨fun r d => ?_, fun _ => ⟨htext, hrun⟩⟩
    rw [htext, hrun]
    constructor
    · rintro ⟨k, h⟩
      cases h
    · rintro ⟨owner, -, h, -⟩
      cases h

/-- A block inside a branch of the top level, and a branch of the block. -/
def branchedScopes : ScopeTree := ⟨#[{ vars := Table.empty.insert "total" 0 },
  { hoist := true, block := true, outer := some .root },
  { vars := Table.empty.insert "item" 0, block := true, outer := some ⟨1⟩ },
  { hoist := true, block := true, outer := some ⟨2⟩ }]⟩

/-- The environments of the top level and of a call of the block, which has assigned `total`. -/
def branchedEnvs : EnvStore := ⟨#[
  { vars := Table.empty.insert "total" (.int 3), parent := none, block := false, lexical := .root },
  { vars := Table.empty.insert "item" .nil, parent := some ⟨0⟩, block := true, lexical := ⟨2⟩ }]⟩

theorem made_branchedEnvs : branchedEnvs.Made branchedScopes := by
  have htop : EnvStore.Made branchedScopes (EnvStore.push {} _) :=
    @EnvStore.Made.new _ _ .root none _ .empty (fun _ h => nomatch h) rfl
  have hcall : EnvStore.Made branchedScopes (EnvStore.push (EnvStore.push {} _) _) :=
    @EnvStore.Made.new _ _ ⟨2⟩ (some ⟨0⟩) _ htop
      (fun id h => ⟨_, congrArg (EnvStore.get? _) (Option.some.inj h).symm⟩) rfl
  exact @EnvStore.Made.assign _ _ _ ⟨1⟩ "total" (.int 3) false hcall rfl

theorem chain_branchedEnvs : branchedEnvs.Chain branchedScopes ⟨1⟩ [⟨0⟩] :=
  .link rfl rfl rfl rfl rfl rfl rfl rfl (.last rfl rfl rfl (.inl rfl) rfl)

theorem branched_lookups_agree :
    branchedScopes.validate = .ok () ∧ branchedEnvs.Made branchedScopes ∧
    branchedEnvs.Chain branchedScopes ⟨1⟩ [⟨0⟩] ∧
    branchedScopes.hoistTarget? ⟨3⟩ = some (branchedEnvs.lexical ⟨1⟩) ∧
    branchedScopes.resolve? ⟨3⟩ "total" false = some (.ok ⟨.root, 1, 0⟩) ∧
    (∃ owner, [⟨1⟩, ⟨0⟩][1]? = some owner ∧
      branchedEnvs.resolve ⟨1⟩ "total" false = .ok (owner, 1) ∧
      branchedEnvs.lexical owner = .root) ∧
    branchedEnvs.resolve ⟨1⟩ "total" true = .error ⟨"total", ⟨2⟩⟩ := by
  have hvalid : branchedScopes.validate = .ok () := rfl
  have htarget : branchedScopes.hoistTarget? ⟨3⟩ = some (branchedEnvs.lexical ⟨1⟩) := rfl
  have hfound : branchedScopes.resolve? ⟨3⟩ "total" false = some (.ok ⟨.root, 1, 0⟩) := rfl
  have hmissed : branchedScopes.resolve? ⟨3⟩ "total" true = some (.error ⟨"total", ⟨3⟩⟩) := rfl
  have hagree := mirrored_lookups_agree hvalid made_branchedEnvs chain_branchedEnvs htarget "total"
  refine ⟨hvalid, made_branchedEnvs, chain_branchedEnvs, htarget, hfound,
    ((hagree false).1 .root 1).mp ⟨0, hfound⟩, ((hagree true).2 ?_).2⟩
  rintro ⟨found, h⟩
  cases hmissed.symm.trans h

end StackCode
