import Mathlib.Algebra.Group.Nat.Defs
import Mathlib.Data.List.Nodup
import StackCode.Code.Program

/-!
# Searches in a scope tree

`hoistTarget?` and `resolve?` count scopes down, which keeps them total on trees that were built
elsewhere. In a sound tree every outer scope comes earlier, so the count never runs out, and a search
is what its rules say. Three things are shown.

1. **Rules**: `hoistTarget?` follows the outer links of hoisted scopes, and `resolve?` finds a
   variable exactly when `Binds` derives it.
2. **Growth**: opening scopes and declaring variables keep a tree sound and only add to it
   (`Grows`, `Extends`).
3. **Persistence**: what is bound in a tree stays bound in every tree that extends it.
-/

namespace StackCode

theorem ScopeId.index_ofNat {n : Nat} (h : n < 2 ^ 32) : (ScopeId.mk n.toUInt32).index = n := by
  show n.toUInt32.toNat = n
  rw [Nat.toUInt32, UInt32.toNat_ofNat']
  exact Nat.mod_eq_of_lt h

/-- In a table without repeated names, finding an entry is having it. -/
theorem Table.findEntry_eq_some_iff {α : Type} {name : String} {value : α}
    {entries : List (String × α)} (h : (entries.map Prod.fst).Nodup) :
    findEntry name entries = some value ↔ (name, value) ∈ entries := by
  induction entries with
  | nil => simp [findEntry]
  | cons e rest ih =>
    obtain ⟨other, old⟩ := e
    rw [List.map_cons, List.nodup_cons] at h
    by_cases heq : other = name
    · subst heq
      have hnot : (other, value) ∉ rest := fun hmem =>
        h.1 (List.mem_map.mpr ⟨_, hmem, rfl⟩)
      simp [findEntry, hnot, eq_comm]
    · simp [findEntry, heq, Ne.symm heq, ih h.2]

/-- A new name goes to the end. -/
theorem Table.entries_insert_of_none {α : Type} {t : Table α} {name : String} {value : α}
    (h : t.get? name = none) : (t.insert name value).entries = t.entries ++ [(name, value)] := by
  show insertEntry name value t.entries = t.entries ++ [(name, value)]
  have h' : findEntry name t.entries = none := h
  revert h'
  induction t.entries with
  | nil => intro _; rfl
  | cons e rest ih =>
    intro h'
    obtain ⟨other, old⟩ := e
    by_cases heq : other = name
    · simp [findEntry, heq] at h'
    · simp only [findEntry, heq, if_false] at h'
      simp only [insertEntry, heq, if_false, List.cons_append, ih h']

namespace ScopeTree

variable {t t' T : ScopeTree} {s s' : ScopeId} {scope : Scope} {name : String}

/-! ## Sound trees -/

/-- What `validate` checks: there is a top level, outer scopes come earlier, slots are in range. -/
structure Sound (t : ScopeTree) : Prop where
  root : 0 < t.size
  outer : ∀ (i : Nat) (scope : Scope) (o : ScopeId), t.scopes[i]? = some scope →
    scope.outer = some o → o.index < i
  slots : ∀ (i : Nat) (scope : Scope), t.scopes[i]? = some scope →
    ∀ e ∈ scope.vars.entries, e.2.toNat < scope.vars.size

/-- One scope passes when its outer scope comes earlier and its slots fit. -/
theorem checkScope_eq_ok_iff {i : Nat} : checkScope i scope = .ok () ↔
    (∀ o, scope.outer = some o → o.index < i) ∧
      ∀ e ∈ scope.vars.entries, e.2.toNat < scope.vars.size := by
  have hfind : (∀ e ∈ scope.vars.entries, e.2.toNat < scope.vars.size) ↔
      (scope.vars.find? fun slot => scope.vars.size ≤ slot.toNat) = none := by
    simp [Table.find?, List.find?_eq_none]
  rw [hfind]
  cases hf : scope.vars.find? fun slot => scope.vars.size ≤ slot.toNat with
  | none =>
    cases ho : scope.outer with
    | none => simp [checkScope, ho, hf, pure, Except.pure]
    | some o =>
      by_cases hlt : i ≤ o.index
      · have hn : ¬ o.index < i := by omega
        simp [checkScope, ho, hlt, hn, bind, Except.bind, throw, throwThe, MonadExceptOf.throw]
      · have hy : o.index < i := by omega
        simp [checkScope, ho, hlt, hf, hy, pure, Except.pure]
  | some e =>
    refine ⟨fun h => ?_, fun h => absurd h.2 (by simp)⟩
    cases ho : scope.outer with
    | none => simp [checkScope, ho, hf, throw, throwThe, MonadExceptOf.throw] at h
    | some o =>
      by_cases hlt : i ≤ o.index
      · simp [checkScope, ho, hlt, bind, Except.bind, throw, throwThe, MonadExceptOf.throw] at h
      · simp [checkScope, ho, hlt, hf, throw, throwThe, MonadExceptOf.throw] at h

/-- The scopes pass together when each of them does, at its own place. -/
theorem checkScopes_eq_ok_iff {scopes : List Scope} : ∀ {i : Nat}, checkScopes i scopes = .ok () ↔
    ∀ (k : Nat) (scope : Scope), scopes[k]? = some scope → checkScope (i + k) scope = .ok () := by
  induction scopes with
  | nil => intro i; simp [checkScopes]
  | cons first rest ih =>
    intro i
    have hstep : checkScopes i (first :: rest) = .ok () ↔
        checkScope i first = .ok () ∧ checkScopes (i + 1) rest = .ok () := by
      cases h : checkScope i first with
      | error e => simp [checkScopes, h, bind, Except.bind]
      | ok u => simp [checkScopes, h, bind, Except.bind]
    rw [hstep, ih]
    constructor
    · rintro ⟨h0, h⟩ k scope hk
      cases k with
      | zero =>
        simp only [List.getElem?_cons_zero, Option.some.injEq] at hk
        rw [← hk]
        exact h0
      | succ k =>
        have := h k scope (by simpa using hk)
        rwa [show i + 1 + k = i + (k + 1) by omega] at this
    · intro h
      refine ⟨h 0 first (by simp), fun k scope hk => ?_⟩
      have := h (k + 1) scope (by simpa using hk)
      rwa [show i + (k + 1) = i + 1 + k by omega] at this

/-- **`validate` accepts exactly the sound trees.** -/
theorem validate_eq_ok_iff : t.validate = .ok () ↔ t.Sound := by
  unfold validate
  by_cases he : t.scopes.isEmpty
  · rw [if_pos he]
    constructor
    · intro h
      cases h
    · intro h
      have := h.root
      simp [size, Array.isEmpty_iff.mp he] at this
  · rw [if_neg he, checkScopes_eq_ok_iff]
    have hpos : 0 < t.size := by
      have : t.scopes.size ≠ 0 := fun h => he (by simp [Array.size_eq_zero_iff.mp h])
      exact Nat.pos_of_ne_zero this
    constructor
    · intro h
      have hc : ∀ (i : Nat) (scope : Scope), t.scopes[i]? = some scope →
          checkScope i scope = .ok () := by
        intro i scope hi
        have := h i scope (by simpa using hi)
        rwa [Nat.zero_add] at this
      exact ⟨hpos, fun i scope o hi ho => (checkScope_eq_ok_iff.mp (hc i scope hi)).1 o ho,
        fun i scope hi => (checkScope_eq_ok_iff.mp (hc i scope hi)).2⟩
    · intro h k scope hk
      have hk' : t.scopes[k]? = some scope := by simpa using hk
      rw [Nat.zero_add]
      exact checkScope_eq_ok_iff.mpr ⟨fun o ho => h.outer k scope o hk' ho, h.slots k scope hk'⟩

theorem index_lt_size (h : t.get? s = some scope) : s.index < t.size :=
  (Array.getElem?_eq_some_iff.mp h).1

theorem exists_get? (h : s.index < t.size) : ∃ scope, t.get? s = some scope :=
  ⟨_, Array.getElem?_eq_getElem h⟩

/-- Outer links lead to earlier scopes. -/
theorem Sound.outer_lt (ht : t.Sound) (hs : t.get? s = some scope) {o : ScopeId}
    (ho : scope.outer = some o) : o.index < s.index :=
  ht.outer s.index scope o hs ho

/-! ## Hoisting -/

/-- The count does not matter once it exceeds the scope's number. -/
theorem hoistWithin_congr (ht : t.Sound) : ∀ (n m : Nat) (s : ScopeId), s.index < n → s.index < m →
    t.hoistWithin n s = t.hoistWithin m s := by
  intro n
  induction n with
  | zero => intro m s hn; omega
  | succ n ih =>
    intro m s hn hm
    obtain ⟨m, rfl⟩ : ∃ k, m = k + 1 := ⟨m - 1, by omega⟩
    cases hs : t.get? s with
    | none => simp [hoistWithin, hs]
    | some scope =>
      cases hh : scope.hoist with
      | false => simp [hoistWithin, hs, hh]
      | true =>
        cases ho : scope.outer with
        | none => simp [hoistWithin, hs, hh, ho]
        | some o =>
          have hlt := ht.outer_lt hs ho
          simp only [hoistWithin, hs, hh, ho, Option.bind_eq_bind, Option.bind_some]
          exact ih m o (by omega) (by omega)

/-- A hoisted scope has the target of the scope around it. -/
theorem hoistTarget?_of_hoist (ht : t.Sound) (hs : t.get? s = some scope) {o : ScopeId}
    (hh : scope.hoist = true) (ho : scope.outer = some o) :
    t.hoistTarget? s = t.hoistTarget? o := by
  have hlt := ht.outer_lt hs ho
  have hsize := index_lt_size hs
  obtain ⟨n, hn⟩ : ∃ n, t.size = n + 1 := ⟨t.size - 1, by omega⟩
  unfold hoistTarget?
  rw [hoistWithin_congr ht t.size (n + 1) s hsize (by omega),
    hoistWithin_congr ht t.size n o (by omega) (by omega)]
  simp [hoistWithin, hs, hh, ho]

/-- A scope that is not hoisted keeps its own variables. -/
theorem hoistTarget?_of_not_hoist (hs : t.get? s = some scope) (hh : scope.hoist = false) :
    t.hoistTarget? s = some s := by
  have hsize := index_lt_size hs
  obtain ⟨n, hn⟩ : ∃ n, t.size = n + 1 := ⟨t.size - 1, by omega⟩
  simp [hoistTarget?, hn, hoistWithin, hs, hh]

theorem contains_of_hoistTarget? (h : t.hoistTarget? s = some s') : t.contains s = true := by
  unfold hoistTarget? at h
  cases hn : t.size with
  | zero => simp [hn, hoistWithin] at h
  | succ n =>
    rw [hn] at h
    cases hs : t.get? s with
    | none => simp [hoistWithin, hs] at h
    | some scope => simpa [contains] using index_lt_size hs

/-! ## Bindings -/

/-- The search for `name` from a scope finds the declaration in scope `r` at slot `k`, `depth` blocks
further out. Hoisted scopes are passed without counting. -/
inductive Binds (t : ScopeTree) (name : String) (localOnly : Bool) :
    ScopeId → Nat → ScopeId → UInt64 → Prop
  | here {s : ScopeId} {scope : Scope} {k : UInt64} (hs : t.get? s = some scope)
      (hh : scope.hoist = false) (hk : scope.vars.get? name = some k) :
      Binds t name localOnly s 0 s k
  | hoisted {s o r : ScopeId} {scope : Scope} {depth : Nat} {k : UInt64}
      (hs : t.get? s = some scope) (hh : scope.hoist = true) (ho : scope.outer = some o)
      (hb : Binds t name localOnly o depth r k) : Binds t name localOnly s depth r k
  | outward {s o r : ScopeId} {scope : Scope} {depth : Nat} {k : UInt64}
      (hs : t.get? s = some scope) (hh : scope.hoist = false)
      (hn : scope.vars.get? name = none) (hblock : scope.block = true) (hl : localOnly = false)
      (ho : scope.outer = some o) (hb : Binds t name localOnly o depth r k) :
      Binds t name localOnly s (depth + 1) r k

/-- Some declaration is found. -/
def Bound (t : ScopeTree) (s : ScopeId) (name : String) (localOnly : Bool) : Prop :=
  ∃ depth r k, Binds t name localOnly s depth r k

variable {localOnly : Bool}

/-- What the rules derive the search finds, if the count is high enough for the way. -/
theorem resolveWithin_of_binds (ht : t.Sound) (start : ScopeId) {r : ScopeId} {k : UInt64} {d : Nat}
    (hb : Binds t name localOnly s d r k) : ∀ (n depth : Nat), s.index < n →
      t.resolveWithin start name localOnly n s depth = some (.ok ⟨r, depth + d, k⟩) := by
  induction hb with
  | here hs hh hk =>
    intro n depth hn
    obtain ⟨n, rfl⟩ : ∃ m, n = m + 1 := ⟨n - 1, by omega⟩
    simp [resolveWithin, hs, hh, hk]
  | hoisted hs hh ho _ ih =>
    intro n depth hn
    obtain ⟨n, rfl⟩ : ∃ m, n = m + 1 := ⟨n - 1, by omega⟩
    have hlt := ht.outer_lt hs ho
    simp only [resolveWithin, hs, hh, ho, Option.bind_eq_bind, Option.bind_some, if_true]
    exact ih n depth (by omega)
  | @outward s o r scope d k hs hh hn' hblock hl ho _ ih =>
    intro n depth hn
    obtain ⟨n, rfl⟩ : ∃ m, n = m + 1 := ⟨n - 1, by omega⟩
    have hlt := ht.outer_lt hs ho
    have := ih n (depth + 1) (by omega)
    simp [resolveWithin, hs, hh, hn', hblock, hl, ho]
    rw [show depth + (d + 1) = depth + 1 + d by omega, ← hl]
    exact this

/-- What the search finds the rules derive. -/
theorem binds_of_resolveWithin {start : ScopeId} {r : Resolved} : ∀ (n depth : Nat) (s : ScopeId),
    t.resolveWithin start name localOnly n s depth = some (.ok r) →
      ∃ d, r.depth = depth + d ∧ Binds t name localOnly s d r.scope r.slot := by
  intro n
  induction n with
  | zero => intro depth s h; simp [resolveWithin] at h
  | succ n ih =>
    intro depth s h
    cases hs : t.get? s with
    | none => simp [resolveWithin, hs] at h
    | some scope =>
      cases hh : scope.hoist with
      | true =>
        cases ho : scope.outer with
        | none => simp [resolveWithin, hs, hh, ho] at h
        | some o =>
          simp only [resolveWithin, hs, hh, ho, Option.bind_eq_bind, Option.bind_some, if_true] at h
          obtain ⟨d, hd, hb⟩ := ih depth o h
          exact ⟨d, hd, .hoisted hs hh ho hb⟩
      | false =>
        cases hk : scope.vars.get? name with
        | some k =>
          simp [resolveWithin, hs, hh, hk] at h
          subst h
          exact ⟨0, rfl, .here hs hh hk⟩
        | none =>
          cases ho : scope.outer with
          | none => simp [resolveWithin, hs, hh, hk, ho] at h
          | some o =>
            by_cases hpass : scope.block = true ∧ localOnly = false
            · obtain ⟨hblock, rfl⟩ := hpass
              simp [resolveWithin, hs, hh, hk, ho, hblock] at h
              obtain ⟨d, hd, hb⟩ := ih (depth + 1) o h
              exact ⟨d + 1, by omega, .outward hs hh hk hblock rfl ho hb⟩
            · simp [resolveWithin, hs, hh, hk, ho, hpass] at h

/-- Variables are bound in scopes that there are. -/
theorem Binds.index_lt {d : Nat} {r : ScopeId} {k : UInt64} (hb : Binds t name localOnly s d r k) :
    s.index < t.size := by
  cases hb with
  | here hs => exact index_lt_size hs
  | hoisted hs => exact index_lt_size hs
  | outward hs => exact index_lt_size hs

/-- **`resolve?` finds a declaration exactly when the rules derive it.** -/
theorem resolve?_eq_ok_iff (ht : t.Sound) {r : Resolved} :
    t.resolve? s name localOnly = some (.ok r) ↔ Binds t name localOnly s r.depth r.scope r.slot := by
  constructor
  · intro h
    obtain ⟨d, hd, hb⟩ := binds_of_resolveWithin t.size 0 s h
    rw [show r.depth = d by omega]
    exact hb
  · intro hb
    have := resolveWithin_of_binds ht s hb t.size 0 hb.index_lt
    rwa [Nat.zero_add] at this

/-- In a sound tree every search has an answer. -/
theorem exists_resolveWithin (ht : t.Sound) (start : ScopeId) (name : String) (localOnly : Bool)
    (n : Nat) : ∀ (s : ScopeId) (depth : Nat), s.index < n → s.index < t.size →
      ∃ answer, t.resolveWithin start name localOnly n s depth = some answer := by
  induction n with
  | zero => exact fun _ _ h => absurd h (Nat.not_lt_zero _)
  | succ n ih =>
    intro s depth hn hs
    obtain ⟨scope, hget⟩ := exists_get? hs
    -- the outer scope comes earlier, so that one less suffices for it
    have hnext : ∀ o depth, scope.outer = some o →
        ∃ answer, t.resolveWithin start name localOnly n o depth = some answer := by
      intro o depth ho
      have hlt := ht.outer_lt hget ho
      exact ih o depth (by omega) (by omega)
    simp only [resolveWithin, hget, Option.bind_eq_bind, Option.bind_some]
    cases scope.hoist with
    | true =>
      cases ho : scope.outer with
      | none => exact ⟨_, rfl⟩
      | some o => exact hnext o depth ho
    | false =>
      cases scope.vars.get? name with
      | some slot => exact ⟨_, rfl⟩
      | none =>
        cases ho : scope.outer with
        | none => exact ⟨_, rfl⟩
        | some o =>
          cases hpass : scope.block && !localOnly with
          | true => exact hnext o (depth + 1) ho
          | false => exact ⟨_, rfl⟩

/-- **A search in a sound tree has an answer.** -/
theorem exists_resolve? (ht : t.Sound) (hs : t.contains s = true) (name : String)
    (localOnly : Bool) : ∃ answer, t.resolve? s name localOnly = some answer :=
  exists_resolveWithin ht s name localOnly t.size s 0 (of_decide_eq_true hs) (of_decide_eq_true hs)

/-- The test for a variable is the rule. -/
theorem isBound_iff (ht : t.Sound) : t.isBound s name = true ↔ Bound t s name false := by
  constructor
  · intro h
    unfold isBound at h
    split at h
    · rename_i r hr
      exact ⟨_, _, _, (resolve?_eq_ok_iff ht).mp hr⟩
    · exact absurd h (by simp)
  · rintro ⟨d, r, k, hb⟩
    have : t.resolve? s name false = some (.ok ⟨r, d, k⟩) := (resolve?_eq_ok_iff ht).mpr hb
    simp [isBound, this]

/-! ## Trees that extend others -/

end ScopeTree

/-- `b` is `a` with perhaps more variables. -/
structure Scope.Extends (a b : Scope) : Prop where
  hoist : b.hoist = a.hoist
  block : b.block = a.block
  outer : b.outer = a.outer
  vars : ∀ (name : String) (k : UInt64), a.vars.get? name = some k → b.vars.get? name = some k

theorem Scope.Extends.refl (a : Scope) : a.Extends a := ⟨rfl, rfl, rfl, fun _ _ h => h⟩

theorem Scope.Extends.trans {a b c : Scope} (h : a.Extends b) (h' : b.Extends c) : a.Extends c :=
  ⟨h'.hoist.trans h.hoist, h'.block.trans h.block, h'.outer.trans h.outer,
    fun name k hk => h'.vars name k (h.vars name k hk)⟩

namespace ScopeTree

variable {t t' T : ScopeTree} {s s' : ScopeId} {scope : Scope} {name : String} {localOnly : Bool}

/-- `T` has all scopes of `t`, perhaps with more variables, and perhaps more scopes. -/
def Extends (t T : ScopeTree) : Prop :=
  ∀ (i : Nat) (scope : Scope), t.scopes[i]? = some scope →
    ∃ scope', T.scopes[i]? = some scope' ∧ scope.Extends scope'

theorem Extends.refl (t : ScopeTree) : t.Extends t :=
  fun _ scope h => ⟨scope, h, .refl scope⟩

theorem Extends.trans (h : t.Extends t') (h' : t'.Extends T) : t.Extends T := by
  intro i scope hi
  obtain ⟨scope₁, hi₁, he₁⟩ := h i scope hi
  obtain ⟨scope₂, hi₂, he₂⟩ := h' i scope₁ hi₁
  exact ⟨scope₂, hi₂, he₁.trans he₂⟩

/-- A scope of the smaller tree is one of the larger, perhaps with more variables. -/
theorem Extends.get? (h : t.Extends T) (hs : t.get? s = some scope) :
    ∃ scope', T.get? s = some scope' ∧ scope.Extends scope' :=
  h s.index scope hs

theorem Extends.size_le (h : t.Extends T) : t.size ≤ T.size := by
  rcases Nat.eq_zero_or_pos t.size with h0 | hpos
  · omega
  · obtain ⟨scope', hs', -⟩ := h (t.size - 1) _ (Array.getElem?_eq_getElem (by
      show t.size - 1 < t.size
      omega))
    have := (Array.getElem?_eq_some_iff.mp hs').1
    show t.size ≤ T.scopes.size
    omega

/-- **What is bound stays bound.** A scope on the way may have got the name meanwhile: the search then
ends there. -/
theorem Binds.extends {d : Nat} {r : ScopeId} {k : UInt64} (hb : Binds t name localOnly s d r k)
    (h : t.Extends T) : Bound T s name localOnly := by
  induction hb with
  | here hs hh hk =>
    obtain ⟨scope', hs', he⟩ := h.get? hs
    exact ⟨_, _, _, .here hs' (by rw [he.hoist, hh]) (he.vars _ _ hk)⟩
  | hoisted hs hh ho _ ih =>
    obtain ⟨scope', hs', he⟩ := h.get? hs
    obtain ⟨d, r, k, hb⟩ := ih
    exact ⟨d, r, k, .hoisted hs' (by rw [he.hoist, hh]) (by rw [he.outer, ho]) hb⟩
  | outward hs hh _ hblock hl ho _ ih =>
    obtain ⟨scope', hs', he⟩ := h.get? hs
    obtain ⟨d, r, k, hb⟩ := ih
    cases hk : scope'.vars.get? name with
    | some k' => exact ⟨_, _, _, .here hs' (by rw [he.hoist, hh]) hk⟩
    | none =>
      exact ⟨_, _, _, .outward hs' (by rw [he.hoist, hh]) hk (by rw [he.block, hblock]) hl
        (by rw [he.outer, ho]) hb⟩

/-- What is bound stays bound. -/
theorem Bound.extends (hb : Bound t s name localOnly) (h : t.Extends T) :
    Bound T s name localOnly := by
  obtain ⟨d, r, k, hb⟩ := hb
  exact hb.extends h

/-! ## Built trees -/

/-- A sound tree in which every hoisted scope has an outer one to hoist to. -/
structure Proper (t : ScopeTree) : Prop extends Sound t where
  hoisted : ∀ (i : Nat) (scope : Scope), t.scopes[i]? = some scope → scope.hoist = true →
    ∃ o, scope.outer = some o

/-- What is declared in `s` belongs to `r`. -/
inductive Hoists (t : ScopeTree) : ScopeId → ScopeId → Prop
  | self {s : ScopeId} {scope : Scope} (hs : t.get? s = some scope) (hh : scope.hoist = false) :
      Hoists t s s
  | outward {s o r : ScopeId} {scope : Scope} (hs : t.get? s = some scope)
      (hh : scope.hoist = true) (ho : scope.outer = some o) (h : Hoists t o r) : Hoists t s r

/-- The rules for hoisting are what `hoistTarget?` computes. -/
theorem Hoists.target (ht : t.Sound) (h : Hoists t s s') : t.hoistTarget? s = some s' := by
  induction h with
  | self hs hh => exact hoistTarget?_of_not_hoist hs hh
  | outward hs hh ho _ ih => rw [hoistTarget?_of_hoist ht hs hh ho, ih]

/-- The target of hoisting is not hoisted itself. -/
theorem Hoists.owner (h : Hoists t s s') :
    ∃ scope, t.get? s' = some scope ∧ scope.hoist = false := by
  induction h with
  | self hs hh => exact ⟨_, hs, hh⟩
  | outward _ _ _ _ ih => exact ih

theorem Hoists.extends (h : Hoists t s s') (he : t.Extends T) : Hoists T s s' := by
  induction h with
  | self hs hh =>
    obtain ⟨scope', hs', hx⟩ := he.get? hs
    exact .self hs' (by rw [hx.hoist, hh])
  | outward hs hh ho _ ih =>
    obtain ⟨scope', hs', hx⟩ := he.get? hs
    exact .outward hs' (by rw [hx.hoist, hh]) (by rw [hx.outer, ho]) ih

/-- A variable of the target is seen in the hoisted scope, at no distance. -/
theorem Hoists.binds (h : Hoists t s s') (hs' : t.get? s' = some scope) {k : UInt64}
    (hk : scope.vars.get? name = some k) : Binds t name localOnly s 0 s' k := by
  induction h with
  | self hs hh =>
    rw [hs] at hs'
    cases hs'
    exact .here hs hh hk
  | outward hs hh ho _ ih => exact .hoisted hs hh ho (ih hs')

/-- In a built tree every scope has a target. -/
theorem Proper.exists_hoists (ht : t.Proper) : ∀ (n : Nat) (s : ScopeId), s.index < n →
    s.index < t.size → ∃ r, Hoists t s r := by
  intro n
  induction n with
  | zero => intro s hn; omega
  | succ n ih =>
    intro s hn hs
    obtain ⟨scope, hget⟩ := exists_get? hs
    cases hh : scope.hoist with
    | false => exact ⟨s, .self hget hh⟩
    | true =>
      obtain ⟨o, ho⟩ := ht.hoisted s.index scope hget hh
      have hlt := ht.outer_lt hget ho
      obtain ⟨r, hr⟩ := ih o (by omega) (by omega)
      exact ⟨r, .outward hget hh ho hr⟩

/-- In a built tree `hoistTarget?` is what the links say. -/
theorem Proper.hoistTarget?_eq_some_iff (ht : t.Proper) :
    t.hoistTarget? s = some s' ↔ Hoists t s s' := by
  refine ⟨fun h => ?_, fun h => h.target ht.toSound⟩
  have hs : s.index < t.size := by simpa [contains] using contains_of_hoistTarget? h
  obtain ⟨r, hr⟩ := ht.exists_hoists (s.index + 1) s (by omega) hs
  rw [hr.target ht.toSound] at h
  cases h
  exact hr

theorem proper_initial : initial.Proper where
  root := by decide
  outer := by
    intro i scope o hi ho
    cases i with
    | zero =>
      simp [initial] at hi
      subst hi
      simp at ho
    | succ i => simp [initial] at hi
  slots := by
    intro i scope hi e he
    cases i with
    | zero =>
      simp [initial] at hi
      subst hi
      simp [Table.empty] at he
    | succ i => simp [initial] at hi
  hoisted := by
    intro i scope hi hh
    cases i with
    | zero =>
      simp [initial] at hi
      subst hi
      simp at hh
    | succ i => simp [initial] at hi

/-! ## Opening scopes -/

/-- The scope that `push` adds. -/
def opened (outer : ScopeId) : ScopeKind → Scope
  | .method => { outer := some outer }
  | .block => { block := true, outer := some outer }
  | .hoisted => { hoist := true, block := true, outer := some outer }

theorem push_scopes (t : ScopeTree) (outer : ScopeId) (kind : ScopeKind) :
    (t.push outer kind).1.scopes = t.scopes.push (opened outer kind) := by
  cases kind <;> rfl

theorem opened_outer (outer : ScopeId) (kind : ScopeKind) :
    (opened outer kind).outer = some outer := by
  cases kind <;> rfl

theorem opened_vars (outer : ScopeId) (kind : ScopeKind) : (opened outer kind).vars = .empty := by
  cases kind <;> rfl

theorem opened_hoist {outer : ScopeId} {kind : ScopeKind} (h : kind ≠ .hoisted) :
    (opened outer kind).hoist = false := by
  cases kind with
  | hoisted => exact absurd rfl h
  | method | block => rfl

theorem size_push (t : ScopeTree) (outer : ScopeId) (kind : ScopeKind) :
    (t.push outer kind).1.size = t.size + 1 := by
  unfold size
  rw [push_scopes, Array.size_push]

/-- Opening a scope leaves the others alone. -/
theorem extends_push (t : ScopeTree) (outer : ScopeId) (kind : ScopeKind) :
    t.Extends (t.push outer kind).1 := by
  intro i scope hi
  refine ⟨scope, ?_, .refl scope⟩
  have hlt := (Array.getElem?_eq_some_iff.mp hi).1
  rw [push_scopes, Array.getElem?_push_lt hlt]
  exact (Array.getElem?_eq_getElem hlt).symm.trans hi

/-- The scopes are the old ones and the one just opened. -/
theorem getElem?_push {i : Nat} {outer : ScopeId} {kind : ScopeKind}
    (hi : (t.push outer kind).1.scopes[i]? = some scope) :
    t.scopes[i]? = some scope ∨ i = t.size ∧ scope = opened outer kind := by
  rw [push_scopes, Array.getElem?_push] at hi
  split at hi
  · rename_i heq
    exact Or.inr ⟨heq, (Option.some.inj hi).symm⟩
  · exact Or.inl hi

/-- The new scope can be named while there are fewer than 2³² scopes. -/
theorem get?_push {outer : ScopeId} {kind : ScopeKind} (h : t.size < 2 ^ 32) :
    (t.push outer kind).1.get? (t.push outer kind).2 = some (opened outer kind) := by
  show (t.push outer kind).1.scopes[(ScopeId.mk t.size.toUInt32).index]? = _
  rw [ScopeId.index_ofNat h, push_scopes]
  exact Array.getElem?_push_size

/-- Opening a scope inside one that there is keeps a tree proper. -/
theorem proper_push (ht : t.Proper) {outer : ScopeId} {kind : ScopeKind}
    (ho : outer.index < t.size) : (t.push outer kind).1.Proper where
  root := by rw [size_push]; omega
  outer := by
    intro i scope o hi hout
    rcases getElem?_push hi with hi | ⟨rfl, rfl⟩
    · exact ht.outer i scope o hi hout
    · rw [opened_outer] at hout
      cases hout
      exact ho
  slots := by
    intro i scope hi e he
    rcases getElem?_push hi with hi | ⟨rfl, rfl⟩
    · exact ht.slots i scope hi e he
    · rw [opened_vars] at he
      simp [Table.empty] at he
  hoisted := by
    intro i scope hi hh
    rcases getElem?_push hi with hi | ⟨rfl, rfl⟩
    · exact ht.hoisted i scope hi hh
    · exact ⟨outer, opened_outer outer kind⟩

/-! ## Declaring variables -/

/-- A second declaration changes nothing. -/
theorem declare_eq_self {owner : ScopeId} {k : UInt64} (ho : t.hoistTarget? s = some owner)
    (hs : t.get? owner = some scope) (hk : scope.vars.get? name = some k) :
    t.declare s name = t := by
  simp [declare, declare?, ho, hs, hk]

/-- A first declaration takes the next slot of the target. -/
theorem declare_eq_insert {owner : ScopeId} (ho : t.hoistTarget? s = some owner)
    (hs : t.get? owner = some scope) (hk : scope.vars.get? name = none) :
    t.declare s name = ⟨t.scopes.setIfInBounds owner.index
      { scope with vars := scope.vars.insert name scope.vars.size.toUInt64 }⟩ := by
  simp [declare, declare?, ho, hs, hk]

/-- A declaration changes nothing, or gives the owner one variable more. -/
theorem declare_cases (t : ScopeTree) (s : ScopeId) (name : String) :
    t.declare s name = t ∨ ∃ owner scope, t.get? owner = some scope ∧
      scope.vars.get? name = none ∧ t.declare s name = ⟨t.scopes.setIfInBounds owner.index
        { scope with vars := scope.vars.insert name scope.vars.size.toUInt64 }⟩ := by
  cases ho : t.hoistTarget? s with
  | none => exact Or.inl (by simp [declare, declare?, ho])
  | some owner =>
    cases hs : t.get? owner with
    | none => exact Or.inl (by simp [declare, declare?, ho, hs])
    | some scope =>
      cases hk : scope.vars.get? name with
      | some k => exact Or.inl (declare_eq_self ho hs hk)
      | none => exact Or.inr ⟨owner, scope, hs, hk, declare_eq_insert ho hs hk⟩

/-- A declaration adds one name to one scope at most. -/
theorem getElem?_declare {i : Nat} (hi : (t.declare s name).scopes[i]? = some scope) :
    ∃ old, t.scopes[i]? = some old ∧ (scope = old ∨ old.vars.get? name = none ∧
      scope = { old with vars := old.vars.insert name old.vars.size.toUInt64 }) := by
  rcases declare_cases t s name with h | ⟨owner, old, hold, hk, h⟩
  · rw [h] at hi
    exact ⟨scope, hi, Or.inl rfl⟩
  · rw [h] at hi
    simp only [Array.getElem?_setIfInBounds] at hi
    split at hi
    · rename_i heq
      subst heq
      split at hi
      · exact ⟨old, hold, Or.inr ⟨hk, (Option.some.inj hi).symm⟩⟩
      · exact absurd hi (by simp)
    · exact ⟨scope, hi, Or.inl rfl⟩

theorem size_declare (t : ScopeTree) (s : ScopeId) (name : String) :
    (t.declare s name).size = t.size := by
  rcases declare_cases t s name with h | ⟨owner, scope, -, -, h⟩
  · rw [h]
  · rw [h]
    exact Array.size_setIfInBounds

/-- A declaration takes nothing away. -/
theorem extends_declare (t : ScopeTree) (s : ScopeId) (name : String) :
    t.Extends (t.declare s name) := by
  intro i scope hi
  have hlt : i < (t.declare s name).scopes.size := by
    show i < (t.declare s name).size
    rw [size_declare]
    exact (Array.getElem?_eq_some_iff.mp hi).1
  refine ⟨_, Array.getElem?_eq_getElem hlt, ?_⟩
  obtain ⟨old, hold, h⟩ := getElem?_declare (Array.getElem?_eq_getElem hlt)
  rw [hi] at hold
  cases hold
  rcases h with h | ⟨hk, h⟩
  · rw [h]
    exact .refl scope
  · rw [h]
    refine ⟨rfl, rfl, rfl, fun other k hk' => ?_⟩
    have hne : name ≠ other := fun he => by rw [he, hk'] at hk; cases hk
    rw [Table.get?_insert, if_neg hne]
    exact hk'

/-- Declaring a variable keeps a tree proper. -/
theorem proper_declare (ht : t.Proper) : (t.declare s name).Proper where
  root := by rw [size_declare]; exact ht.root
  outer := by
    intro i scope o hi ho
    obtain ⟨old, hold, rfl | ⟨-, rfl⟩⟩ := getElem?_declare hi
    · exact ht.outer i scope o hold ho
    · exact ht.outer i old o hold ho
  slots := by
    intro i scope hi e he
    obtain ⟨old, hold, rfl | ⟨hk, rfl⟩⟩ := getElem?_declare hi
    · exact ht.slots i scope hold e he
    · rw [Table.entries_insert_of_none hk] at he
      show e.2.toNat < (old.vars.insert name old.vars.size.toUInt64).entries.length
      rw [Table.entries_insert_of_none hk, List.length_append, List.length_singleton]
      rcases List.mem_append.mp he with he | he
      · have := ht.slots i old hold e he
        exact Nat.lt_succ_of_lt this
      · rw [List.mem_singleton.mp he]
        show old.vars.size.toUInt64.toNat < old.vars.size + 1
        rw [Nat.toUInt64, UInt64.toNat_ofNat']
        exact Nat.lt_succ_of_le (Nat.mod_le _ _)
  hoisted := by
    intro i scope hi hh
    obtain ⟨old, hold, rfl | ⟨-, rfl⟩⟩ := getElem?_declare hi
    · exact ht.hoisted i scope hold hh
    · exact ht.hoisted i old hold hh

/-- **A declared name is bound**, in the owner of the scope it was declared in. -/
theorem bound_declare (ht : t.Proper) (hs : s.index < t.size) :
    Bound (t.declare s name) s name localOnly := by
  obtain ⟨owner, howner⟩ := ht.exists_hoists (s.index + 1) s (by omega) hs
  obtain ⟨scope, hget, -⟩ := howner.owner
  cases hk : scope.vars.get? name with
  | some k =>
    rw [declare_eq_self (howner.target ht.toSound) hget hk]
    exact ⟨0, owner, k, howner.binds hget hk⟩
  | none =>
    have hlt : owner.index < t.scopes.size := index_lt_size hget
    have hget' : (t.declare s name).get? owner =
        some { scope with vars := scope.vars.insert name scope.vars.size.toUInt64 } := by
      rw [declare_eq_insert (howner.target ht.toSound) hget hk]
      unfold ScopeTree.get?
      simp only [Array.getElem?_setIfInBounds, if_true, hlt]
    exact ⟨0, owner, _, (howner.extends (extends_declare t s name)).binds hget'
      (by rw [Table.get?_insert, if_pos rfl])⟩

/-! ## Growth -/

/-- `T` comes from `t` by declaring variables and opening `n` scopes inside scopes that exist. -/
inductive Grows (t : ScopeTree) : Nat → ScopeTree → Prop
  | refl : Grows t 0 t
  | push {n : Nat} {u : ScopeTree} (outer : ScopeId) (kind : ScopeKind) (h : Grows t n u)
      (ho : outer.index < u.size) : Grows t (n + 1) (u.push outer kind).1
  | declare {n : Nat} {u : ScopeTree} (s : ScopeId) (name : String) (h : Grows t n u) :
      Grows t n (u.declare s name)

theorem Grows.trans {n m : Nat} (h : t.Grows n t') (h' : t'.Grows m T) : t.Grows (n + m) T := by
  induction h' with
  | refl => exact h
  | push outer kind _ ho ih => exact ih.push outer kind ho
  | declare s name _ ih => exact ih.declare s name

/-- The size tells how many scopes were opened. -/
theorem Grows.size {n : Nat} (h : t.Grows n T) : T.size = t.size + n := by
  induction h with
  | refl => rfl
  | push outer kind _ _ ih => rw [size_push, ih, Nat.add_assoc]
  | declare s name _ ih => rw [size_declare, ih]

theorem Grows.extends {n : Nat} (h : t.Grows n T) : t.Extends T := by
  induction h with
  | refl => exact .refl t
  | push outer kind _ _ ih => exact ih.trans (extends_push _ outer kind)
  | declare s name _ ih => exact ih.trans (extends_declare _ s name)

/-- **Growth keeps a tree proper.** -/
theorem Grows.proper {n : Nat} (h : t.Grows n T) (ht : t.Proper) : T.Proper := by
  induction h with
  | refl => exact ht
  | push _ _ _ ho ih => exact proper_push ih ho
  | declare _ _ _ ih => exact proper_declare ih

/-! ## Slots -/

/-- The variables of every scope are numbered in the order in which they were declared. -/
def Numbered (t : ScopeTree) : Prop :=
  ∀ (i : Nat) (scope : Scope), t.scopes[i]? = some scope →
    scope.vars.entries.map Prod.snd = (List.range scope.vars.size).map Nat.toUInt64

theorem numbered_initial : initial.Numbered := by
  intro i scope hi
  cases i with
  | zero =>
    cases hi
    rfl
  | succ i => simp [initial] at hi

theorem numbered_push (ht : t.Numbered) (outer : ScopeId) (kind : ScopeKind) :
    (t.push outer kind).1.Numbered := by
  intro i scope hi
  rcases getElem?_push hi with hi | ⟨rfl, rfl⟩
  · exact ht i scope hi
  · rw [opened_vars]
    rfl

/-- A new variable gets the number of those before it. -/
theorem numbered_declare (ht : t.Numbered) (s : ScopeId) (name : String) :
    (t.declare s name).Numbered := by
  intro i scope hi
  obtain ⟨old, hold, rfl | ⟨hk, rfl⟩⟩ := getElem?_declare hi
  · exact ht i scope hold
  · have hsize : (old.vars.insert name old.vars.size.toUInt64).size = old.vars.size + 1 := by
      unfold Table.size
      rw [Table.entries_insert_of_none hk, List.length_append, List.length_singleton]
    rw [Table.entries_insert_of_none hk, hsize, List.map_append, ht i old hold, List.range_succ,
      List.map_append]
    rfl

theorem Grows.numbered {n : Nat} (h : t.Grows n T) (ht : t.Numbered) : T.Numbered := by
  induction h with
  | refl => exact ht
  | push outer kind _ _ ih => exact numbered_push ih outer kind
  | declare s name _ ih => exact numbered_declare ih s name

/-- No two variables of a scope share a slot. -/
def Separate (t : ScopeTree) : Prop :=
  ∀ (s : ScopeId) (scope : Scope) (a b : String) (k : UInt64), t.get? s = some scope →
    scope.vars.get? a = some k → scope.vars.get? b = some k → a = b

/-- As long as slots can be counted, no two variables share one. -/
theorem Numbered.separate (ht : t.Numbered)
    (hsmall : ∀ s scope, t.get? s = some scope → scope.vars.size ≤ 2 ^ 64) : t.Separate := by
  intro s scope a b k hs ha hb
  have hnodup : (scope.vars.entries.map Prod.snd).Nodup := by
    rw [ht s.index scope hs]
    refine List.Nodup.map_on (fun x hx y hy hxy => ?_) List.nodup_range
    have hcount := hsmall s scope hs
    rw [List.mem_range] at hx hy
    have hslot : ∀ z, z < 2 ^ 64 → z.toUInt64.toNat = z := fun z hz =>
      UInt64.toNat_ofNat_of_lt' hz
    rw [← hslot x (by omega), ← hslot y (by omega), hxy]
  have ha := (Table.findEntry_eq_some_iff scope.vars.distinct).mp ha
  have hb := (Table.findEntry_eq_some_iff scope.vars.distinct).mp hb
  exact congrArg Prod.fst (List.inj_on_of_nodup_map hnodup ha hb rfl)

/-- A variable that is found is one of the scope where it is found, which owns variables. -/
theorem Binds.owner {d : Nat} {r : ScopeId} {k : UInt64} (hb : Binds t name localOnly s d r k) :
    ∃ scope, t.get? r = some scope ∧ scope.hoist = false ∧ scope.vars.get? name = some k := by
  induction hb with
  | here hs hh hk => exact ⟨_, hs, hh, hk⟩
  | hoisted _ _ _ _ ih => exact ih
  | outward _ _ _ _ _ _ _ ih => exact ih

end ScopeTree

end StackCode
