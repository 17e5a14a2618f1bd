import StackCode.Proofs.Evaluator
import StackCode.Proofs.Lowering

/-!
# Names in the text and in the scopes

`Shows t r names`: the scopes around `r` declare just the names that the text has made visible,
body by body. So a name means a variable at the one place exactly when it does at the other, and
it is declared as many bodies further out (`Shows.binds`, `Shows.bound_iff`).

Lowering keeps the two together (`declares_lower`). While it goes on, a scope may get more variables,
but never one that a search from inside has already passed it for: what has been bound stays bound
to the same declaration (`Evolves.binds`).
-/

namespace StackCode

open ScopeTree (Binds Bound Hoists)

variable {t t' t'' T : ScopeTree} {s o r r' : ScopeId} {scope : Scope} {names names' : Names}
  {inner : List String} {name : String} {localOnly : Bool} {d k : Nat} {slot : UInt64}

/-! ## Hoisted scopes -/

theorem ScopeId.eq_of_index_eq {a b : ScopeId} (h : a.index = b.index) : a = b := by
  cases a
  cases b
  exact congrArg ScopeId.mk (UInt32.toNat_inj.mp h)

/-- A hoisted scope sees what its target sees. -/
theorem ScopeTree.Hoists.binds_iff (h : Hoists t s r) :
    Binds t name localOnly s d r' slot ↔ Binds t name localOnly r d r' slot := by
  induction h with
  | self => rfl
  | outward hs hh ho _ ih =>
    rw [← ih]
    constructor
    · intro hb
      cases hb with
      | here hs' hh' =>
        rw [hs] at hs'
        cases hs'
        rw [hh] at hh'
        cases hh'
      | hoisted hs' _ ho' hb =>
        rw [hs] at hs'
        cases hs'
        rw [ho] at ho'
        cases ho'
        exact hb
      | outward hs' hh' =>
        rw [hs] at hs'
        cases hs'
        rw [hh] at hh'
        cases hh'
    · exact .hoisted hs hh ho

/-- A search from a scope that owns its variables ends there or goes on outwards. -/
theorem ScopeTree.Binds.of_owner (hs : t.get? s = some scope) (hh : scope.hoist = false)
    (hb : Binds t name localOnly s d r' slot) : (scope.vars.get? name).isSome = true ∨
      scope.block = true ∧ ∃ o d', scope.outer = some o ∧ Binds t name localOnly o d' r' slot := by
  cases hb with
  | here hs' _ hk =>
    rw [hs] at hs'
    cases hs'
    exact .inl (by rw [hk]; rfl)
  | hoisted hs' hh' =>
    rw [hs] at hs'
    cases hs'
    rw [hh] at hh'
    cases hh'
  | outward hs' _ _ hblock _ ho hb =>
    rw [hs] at hs'
    cases hs'
    exact .inr ⟨hblock, _, _, ho, hb⟩

/-- Hoisting leads to earlier scopes. -/
theorem ScopeTree.Hoists.index_le (ht : t.Sound) (h : Hoists t s r) : r.index ≤ s.index := by
  induction h with
  | self => exact Nat.le_refl _
  | outward hs _ ho _ ih => exact Nat.le_trans ih (Nat.le_of_lt (ht.outer_lt hs ho))

theorem ScopeTree.Hoists.index_lt (h : Hoists t s r) : s.index < t.size := by
  cases h with
  | self hs => exact ScopeTree.index_lt_size hs
  | outward hs => exact ScopeTree.index_lt_size hs

theorem ScopeTree.Hoists.owner_lt (h : Hoists t s r) : r.index < t.size := by
  obtain ⟨scope, hs, -⟩ := h.owner
  exact ScopeTree.index_lt_size hs

/-- A declaration changes the variables of the owner, and nothing else. -/
theorem ScopeTree.declare_owner (ht : t.Sound) (hr : Hoists t s r) (hs : t.get? r = some scope)
    (name : String) : ∃ vars, (t.declare s name).get? r = some { scope with vars } ∧
      (∀ x, vars.contains x = (x == name || scope.vars.contains x)) ∧
      ∀ i, i ≠ r.index → (t.declare s name).scopes[i]? = t.scopes[i]? := by
  cases hk : scope.vars.get? name with
  | some slot =>
    rw [declare_eq_self (hr.target ht) hs hk]
    refine ⟨scope.vars, hs, fun x => ?_, fun _ _ => rfl⟩
    by_cases hx : x = name
    · simp [hx, Table.contains, hk]
    · simp [hx]
  | none =>
    have hlt : r.index < t.scopes.size := index_lt_size hs
    rw [declare_eq_insert (hr.target ht) hs hk]
    refine ⟨scope.vars.insert name scope.vars.size.toUInt64, ?_, fun x => ?_, fun i hi => ?_⟩
    · unfold ScopeTree.get?
      simp only [Array.getElem?_setIfInBounds, if_true, hlt]
    · rw [Table.contains, Table.get?_insert]
      by_cases hx : x = name
      · simp [hx]
      · have hne : ¬ name = x := fun h => hx h.symm
        simp [hx, hne, Table.contains]
    · exact Array.getElem?_setIfInBounds_ne (Ne.symm hi)

/-! ## What can be seen -/

/-- The names are those of the variables of the scope. -/
def Lists (inner : List String) (scope : Scope) : Prop :=
  ∀ x, inner.contains x = scope.vars.contains x

/-- The scopes around `r` declare the names, body by body. -/
inductive Shows (t : ScopeTree) : ScopeId → Names → Prop
  | last {r : ScopeId} {scope : Scope} {inner : List String} (hs : t.get? r = some scope)
      (hh : scope.hoist = false) (hb : scope.block = false) (hn : Lists inner scope) :
      Shows t r [inner]
  | outward {r o r' : ScopeId} {scope : Scope} {inner : List String} {outer : Names}
      (hs : t.get? r = some scope) (hh : scope.hoist = false) (hb : scope.block = true)
      (ho : scope.outer = some o) (hn : Lists inner scope) (hr : Hoists t o r')
      (h : Shows t r' outer) : Shows t r (inner :: outer)

/-- The innermost body is searched first. -/
theorem Names.level?_cons (inner : List String) (outer : Names) (name : String) :
    level? (inner :: outer) name =
      if inner.contains name then some 0 else (level? outer name).map (· + 1) :=
  List.findIdx?_cons

/-- A name can be seen once it has been declared. -/
theorem Names.isSome_level?_declare (inner : List String) (outer : Names) (name : String) :
    ((declare (inner :: outer) name).level? name).isSome = true := by
  unfold declare
  split
  · rw [level?_cons, List.contains_cons, beq_self_eq_true, Bool.true_or, if_pos rfl]
    rfl
  · rename_i hlevel
    cases h : level? (inner :: outer) name with
    | none => exact absurd rfl (hlevel _ _ h)
    | some k => rfl

/-- A name that the text has listed has a slot. -/
theorem Lists.get?_of_contains (h : Lists inner scope) (hc : inner.contains name = true) :
    ∃ slot, scope.vars.get? name = some slot := by
  rw [h, Table.contains] at hc
  exact Option.isSome_iff_exists.mp hc

theorem Lists.get?_of_not_contains (h : Lists inner scope) (hc : ¬ inner.contains name = true) :
    scope.vars.get? name = none := by
  rw [h, Table.contains] at hc
  exact Option.not_isSome_iff_eq_none.mp hc

/-- A name that can be seen is bound as many bodies further out. -/
theorem Shows.binds (h : Shows t r names) (hk : names.level? name = some k) :
    ∃ r' slot, Binds t name false r k r' slot := by
  induction h generalizing k with
  | last hs hh hb hn =>
    rw [Names.level?_cons] at hk
    split at hk
    · rename_i hc
      cases hk
      obtain ⟨slot, hslot⟩ := hn.get?_of_contains hc
      exact ⟨_, slot, .here hs hh hslot⟩
    · cases hk
  | outward hs hh hb ho hn hr _ ih =>
    rw [Names.level?_cons] at hk
    split at hk
    · rename_i hc
      cases hk
      obtain ⟨slot, hslot⟩ := hn.get?_of_contains hc
      exact ⟨_, slot, .here hs hh hslot⟩
    · rename_i hc
      obtain ⟨k', hk', rfl⟩ := Option.map_eq_some_iff.mp hk
      obtain ⟨r', slot, hbinds⟩ := ih hk'
      exact ⟨r', slot, .outward hs hh (hn.get?_of_not_contains hc) hb rfl ho (hr.binds_iff.mpr hbinds)⟩

/-- A name that is bound in the scopes is visible in the text. -/
theorem Shows.level?_isSome (h : Shows t r names) (hb : Binds t name false r d r' slot) :
    (names.level? name).isSome = true := by
  induction h generalizing d with
  | last hs hh hblock hn =>
    rw [Names.level?_cons]
    split
    · rfl
    · rename_i hc
      rcases hb.of_owner hs hh with hsome | ⟨hblock', -⟩
      · rw [hn.get?_of_not_contains hc] at hsome
        cases hsome
      · rw [hblock] at hblock'
        cases hblock'
  | outward hs hh _ ho hn hr _ ih =>
    rw [Names.level?_cons]
    split
    · rfl
    · rename_i hc
      rcases hb.of_owner hs hh with hsome | ⟨-, o, d', ho', hb'⟩
      · rw [hn.get?_of_not_contains hc] at hsome
        cases hsome
      · rw [ho] at ho'
        cases ho'
        rw [Option.isSome_map]
        exact ih (hr.binds_iff.mp hb')

/-- **A name can be seen in the text exactly when it is bound in the scopes.** -/
theorem Shows.bound_iff (h : Shows t r names) (hr : Hoists t s r) :
    Bound t s name false ↔ (names.level? name).isSome = true := by
  constructor
  · rintro ⟨d, r', slot, hb⟩
    exact h.level?_isSome (hr.binds_iff.mp hb)
  · intro hsome
    obtain ⟨k, hk⟩ := Option.isSome_iff_exists.mp hsome
    obtain ⟨r', slot, hb⟩ := h.binds hk
    exact ⟨k, r', slot, hr.binds_iff.mpr hb⟩

theorem Shows.ne_nil (h : Shows t r names) : ∃ inner outer, names = inner :: outer := by
  cases h with
  | last => exact ⟨_, _, rfl⟩
  | outward => exact ⟨_, _, rfl⟩

/-- Only the scopes with smaller numbers matter. -/
theorem Shows.congr (ht : t.Sound) (he : t.Extends t') (h : Shows t r names)
    (hsame : ∀ i, i ≤ r.index → t'.scopes[i]? = t.scopes[i]?) : Shows t' r names := by
  induction h with
  | last hs hh hb hn => exact .last ((hsame _ (Nat.le_refl _)).trans hs) hh hb hn
  | outward hs hh hb ho hn hr _ ih =>
    refine .outward ((hsame _ (Nat.le_refl _)).trans hs) hh hb ho hn (hr.extends he) (ih ?_)
    intro i hi
    have hle := hr.index_le ht
    have hlt := ht.outer_lt hs ho
    exact hsame i (by omega)

/-! ## How scopes change -/

/-- The scopes grow from `t` to `t'`, and of those in `t` only `r` gets variables. What is bound in
`t` is bound to the same declaration in `t'`. -/
structure Evolves (r : ScopeId) (t t' : ScopeTree) : Prop where
  grows : ∃ n, t.Grows n t'
  others : ∀ i, i < t.size → i ≠ r.index → t'.scopes[i]? = t.scopes[i]?
  binds : ∀ {s : ScopeId} {name : String} {localOnly : Bool} {d : Nat} {r' : ScopeId}
    {slot : UInt64}, Binds t name localOnly s d r' slot → Binds t' name localOnly s d r' slot

/-- Scopes that evolve only gain variables. -/
theorem Evolves.extends (h : Evolves r t t') : t.Extends t' := by
  obtain ⟨n, hn⟩ := h.grows
  exact hn.extends

theorem Evolves.proper (h : Evolves r t t') (ht : t.Proper) : t'.Proper := by
  obtain ⟨n, hn⟩ := h.grows
  exact hn.proper ht

theorem Evolves.refl (r : ScopeId) (t : ScopeTree) : Evolves r t t :=
  ⟨⟨0, .refl⟩, fun _ _ _ => rfl, id⟩

theorem Evolves.trans (h : Evolves r t t') (h' : Evolves r t' t'') : Evolves r t t'' := by
  obtain ⟨n, hn⟩ := h.grows
  obtain ⟨m, hm⟩ := h'.grows
  refine ⟨⟨n + m, hn.trans hm⟩, fun i hi hne => ?_, fun hb => h'.binds (h.binds hb)⟩
  rw [h'.others i (Nat.lt_of_lt_of_le hi h.extends.size_le) hne, h.others i hi hne]

/-- Bindings are found in the scopes that exist. -/
theorem binds_of_same (hsame : ∀ i, i < t.size → t'.scopes[i]? = t.scopes[i]?)
    (hb : Binds t name localOnly s d r' slot) : Binds t' name localOnly s d r' slot := by
  have hget : ∀ {s scope}, t.get? s = some scope → t'.get? s = some scope := fun hs =>
    (hsame _ (ScopeTree.index_lt_size hs)).trans hs
  induction hb with
  | here hs hh hk => exact .here (hget hs) hh hk
  | hoisted hs hh ho _ ih => exact .hoisted (hget hs) hh ho ih
  | outward hs hh hn hblock hl ho _ ih => exact .outward (hget hs) hh hn hblock hl ho ih

/-- No scope that exists gets a variable. -/
theorem evolves_of_same {n : Nat} (hg : t.Grows n t')
    (hsame : ∀ i, i < t.size → t'.scopes[i]? = t.scopes[i]?) : Evolves r t t' :=
  ⟨⟨n, hg⟩, fun i hi _ => hsame i hi, binds_of_same hsame⟩

theorem getElem?_push_of_lt {outer : ScopeId} {kind : ScopeKind} {i : Nat} (hi : i < t.size) :
    (t.push outer kind).1.scopes[i]? = t.scopes[i]? := by
  rw [ScopeTree.push_scopes, Array.getElem?_push_lt hi]
  exact (Array.getElem?_eq_getElem hi).symm

/-- The names that can be seen when the scopes have changed. -/
structure Declares (r : ScopeId) (t : ScopeTree) (t' : ScopeTree) (names' : Names) : Prop extends
    Evolves r t t' where
  shows : Shows t' r names'

theorem Declares.trans (h : Declares r t t' names) (h' : Declares r t' t'' names') :
    Declares r t t'' names' :=
  ⟨h.toEvolves.trans h'.toEvolves, h'.shows⟩

/-- **An assignment declares its name**, unless it can be seen already. The scope that gets the
variable is passed by no search for it: such a search would have made the name visible. -/
theorem declares_assign (ht : t.Proper) (hr : Hoists t s r) (h : Shows t r names) (name : String) :
    Declares r t (if t.isBound s name then t else t.declare s name) (names.declare name) := by
  have hbound : t.isBound s name = true ↔ (names.level? name).isSome = true :=
    (ScopeTree.isBound_iff ht.toSound).trans (h.bound_iff hr)
  obtain ⟨inner, outer, rfl⟩ := h.ne_nil
  split
  · rename_i hb
    obtain ⟨k, hk⟩ := Option.isSome_iff_exists.mp (hbound.mp hb)
    have hdeclare : Names.declare (inner :: outer) name = inner :: outer := by
      simp only [Names.declare, hk]
    rw [hdeclare]
    exact ⟨.refl r t, h⟩
  · rename_i hb
    have hnone : Names.level? (inner :: outer) name = none :=
      Option.not_isSome_iff_eq_none.mp (mt hbound.mpr hb)
    have hdeclare : Names.declare (inner :: outer) name = (name :: inner) :: outer := by
      simp only [Names.declare, hnone]
    rw [hdeclare]
    obtain ⟨scope, hs, hh⟩ := hr.owner
    obtain ⟨vars, hs', hvars, hothers⟩ := ScopeTree.declare_owner ht.toSound hr hs name
    have hlists : ∀ {scope' : Scope}, t.get? r = some scope' → Lists inner scope' →
        Lists (name :: inner) { scope with vars } := by
      intro scope' hget hn x
      rw [hs] at hget
      cases hget
      rw [List.contains_cons, hn x, hvars x]
    have hext := ScopeTree.extends_declare t s name
    refine ⟨⟨⟨0, .declare s name .refl⟩, fun i _ hi => hothers i hi, fun {u y lo d r' slot} hb => ?_⟩,
      ?_⟩
    · induction hb with
      | here hu hh' hk =>
        obtain ⟨scope', hu', hx⟩ := hext.get? hu
        exact .here hu' (hx.hoist.trans hh') (hx.vars _ _ hk)
      | hoisted hu hh' ho _ ih =>
        obtain ⟨scope', hu', hx⟩ := hext.get? hu
        exact .hoisted hu' (hx.hoist.trans hh') (hx.outer.trans ho) ih
      | @outward u o r' scope' d slot hu hh' hn hblock hl ho hrest ih =>
        by_cases hur : u = r
        · subst hur
          -- a search that passes the owner has found the name further out
          rw [hs] at hu
          cases hu
          have hne : y ≠ name := by
            rintro rfl
            subst hl
            have hseen : Bound t s y false :=
              ⟨_, _, _, hr.binds_iff.mpr (.outward hs hh' hn hblock rfl ho hrest)⟩
            exact hb ((ScopeTree.isBound_iff ht.toSound).mpr hseen)
          refine .outward hs' hh' ?_ hblock hl ho ih
          have hc : vars.contains y = false := by
            rw [hvars y, Table.contains, hn]
            simpa using hne
          exact Option.not_isSome_iff_eq_none.mp (by rw [← Table.contains, hc]; nofun)
        · have hi : u.index ≠ r.index := mt ScopeId.eq_of_index_eq hur
          exact .outward ((hothers _ hi).trans hu) hh' hn hblock hl ho ih
    · cases h with
      | last hget hh' hb' hn =>
        have hl := hlists hget hn
        rw [hs] at hget
        cases hget
        exact .last hs' hh' hb' hl
      | outward hget hh' hb' ho hn hr' hrest =>
        have hl := hlists hget hn
        rw [hs] at hget
        cases hget
        have hlt := ht.toSound.outer_lt hs ho
        have hle := hr'.index_le ht.toSound
        refine .outward hs' hh' hb' ho hl (hr'.extends hext) (hrest.congr ht.toSound hext ?_)
        intro i hi
        exact hothers i (by omega)

/-! ## Scopes that are opened -/

/-- In scope `s`, whose variables belong to `r`, the names can be seen. -/
structure View (t : ScopeTree) (s r : ScopeId) (names : Names) : Prop where
  proper : t.Proper
  owner : Hoists t s r
  shows : Shows t r names

theorem view_initial : View .initial .root .root [[]] := by
  have hroot : ScopeTree.initial.get? .root = some {} := rfl
  exact ⟨ScopeTree.proper_initial, .self hroot rfl, .last hroot rfl rfl fun _ => rfl⟩

/-- After a declaration the names are seen from the same scope. -/
theorem View.after (h : View t s r names) (h' : Declares r t t' names') : View t' s r names' :=
  ⟨h'.toEvolves.proper h.proper, h.owner.extends h'.toEvolves.extends, h'.shows⟩

theorem index_push (hsmall : t.size < 2 ^ 32) (outer : ScopeId) (kind : ScopeKind) :
    (t.push outer kind).2.index = t.size :=
  ScopeId.index_ofNat hsmall

/-- Scopes are opened and get variables, but no scope that exists does. -/
theorem Declares.inside {u : ScopeTree} {b : ScopeId} {n : Nat} (hv : View t s r names)
    (hg : t.Grows n u) (hsame : ∀ i, i < t.size → u.scopes[i]? = t.scopes[i]?)
    (hb : t.size ≤ b.index) (h : Evolves b u t') : Declares r t t' names := by
  obtain ⟨m, hm⟩ := h.grows
  have hold : ∀ i, i < t.size → t'.scopes[i]? = t.scopes[i]? := by
    intro i hi
    have hi' := Nat.lt_of_lt_of_le hi hg.extends.size_le
    rw [h.others i hi' (by omega), hsame i hi]
  refine ⟨evolves_of_same (hg.trans hm) hold, ?_⟩
  refine hv.shows.congr hv.proper.toSound (hg.trans hm).extends fun i hi => ?_
  exact hold i (Nat.lt_of_le_of_lt hi hv.owner.owner_lt)

/-- A scope for a branch sees what is around it. -/
theorem View.hoisted (hv : View t s r names) (hsmall : t.size < 2 ^ 32) :
    Declares r t (t.push s .hoisted).1 names ∧
      View (t.push s .hoisted).1 (t.push s .hoisted).2 r names := by
  have hs := hv.owner.index_lt
  have hext := ScopeTree.extends_push t s .hoisted
  have hdeclares : Declares r t (t.push s .hoisted).1 names := by
    refine ⟨evolves_of_same (.push s .hoisted .refl hs) fun i hi => getElem?_push_of_lt hi, ?_⟩
    refine hv.shows.congr hv.proper.toSound hext fun i hi => ?_
    exact getElem?_push_of_lt (Nat.lt_of_le_of_lt hi hv.owner.owner_lt)
  refine ⟨hdeclares, ScopeTree.proper_push hv.proper hs, ?_, hdeclares.shows⟩
  exact .outward (ScopeTree.get?_push hsmall) rfl rfl (hv.owner.extends hext)

/-- The scopes after the parameters of a body have been declared. -/
theorem bindParams_scopes {here : Place} (ht : t.Proper) (hs : t.get? here.scope = some scope)
    (hh : scope.hoist = false) (n : Nat) (params : List String) :
    t.Grows 0 (Expr.bindParams here n params t).2 ∧
    (∃ vars, (Expr.bindParams here n params t).2.get? here.scope = some { scope with vars } ∧
      ∀ x, vars.contains x = (params.contains x || scope.vars.contains x)) ∧
    ∀ i, i ≠ here.scope.index →
      (Expr.bindParams here n params t).2.scopes[i]? = t.scopes[i]? := by
  induction params generalizing n t scope with
  | nil => exact ⟨.refl, ⟨scope.vars, hs, fun x => by simp⟩, fun _ _ => rfl⟩
  | cons name rest ih =>
    obtain ⟨vars, hs', hvars, hothers⟩ := ScopeTree.declare_owner ht.toSound (.self hs hh) hs name
    obtain ⟨hg, ⟨vars', hs'', hvars'⟩, hothers'⟩ :=
      ih (ScopeTree.proper_declare ht) hs' hh (n + 1)
    refine ⟨.trans (.declare here.scope name .refl) hg, ⟨vars', hs'', fun x => ?_⟩, fun i hi => ?_⟩
    · rw [hvars', hvars, List.contains_cons, Bool.or_left_comm, Bool.or_assoc]
    · exact (hothers' i hi).trans (hothers i hi)

theorem size_bindParams (here : Place) (n : Nat) (params : List String) (t : ScopeTree) :
    (Expr.bindParams here n params t).2.size = t.size := by
  induction params generalizing n t with
  | nil => rfl
  | cons name rest ih => exact (ih (n + 1) _).trans (ScopeTree.size_declare t here.scope name)

section

variable {here : Place} {n : Nat} {params : List String} {kind : ScopeKind}

/-- A body of its own: what was there stays as it is, and the parameters are declared inside. -/
theorem bindParams_opened (n : Nat) (params : List String) (hv : View t s r names)
    (hsmall : t.size < 2 ^ 32) (hkind : kind ≠ .hoisted) (hhere : here.scope = (t.push s kind).2) :
    t.Grows 1 (Expr.bindParams here n params (t.push s kind).1).2 ∧
    (∀ i, i < t.size → (Expr.bindParams here n params (t.push s kind).1).2.scopes[i]? =
      t.scopes[i]?) ∧
    ∃ scope, (Expr.bindParams here n params (t.push s kind).1).2.get? here.scope = some scope ∧
      scope.hoist = false ∧ scope.block = (kind != .method) ∧ scope.outer = some s ∧
      Lists params scope := by
  have hs := hv.owner.index_lt
  have hget : (t.push s kind).1.get? (t.push s kind).2 = some (ScopeTree.opened s kind) :=
    ScopeTree.get?_push hsmall
  rw [← hhere] at hget
  have hhoist : (ScopeTree.opened s kind).hoist = false := ScopeTree.opened_hoist hkind
  obtain ⟨hg, ⟨vars, hget', hvars⟩, hothers⟩ :=
    bindParams_scopes (ScopeTree.proper_push hv.proper hs) hget hhoist n params
  refine ⟨.trans (.push s kind .refl hs) hg, fun i hi => ?_, _, hget', hhoist, ?_, ?_, fun x => ?_⟩
  · have hne : i ≠ here.scope.index := by
      rw [hhere, index_push hsmall]
      omega
    rw [hothers i hne, getElem?_push_of_lt hi]
  · cases kind <;> rfl
  · exact ScopeTree.opened_outer s kind
  · rw [hvars, ScopeTree.opened_vars]
    simp [Table.contains, Table.empty, Table.get?, Table.findEntry]

/-- The body of a block sees its parameters and what is around the block. -/
theorem View.block (hv : View t s r names) (hsmall : t.size < 2 ^ 32)
    (hhere : here.scope = (t.push s .block).2) :
    View (Expr.bindParams here n params (t.push s .block).1).2 here.scope here.scope
      (params :: names) := by
  obtain ⟨hg, hsame, scope, hget, hh, hb, ho, hn⟩ :=
    bindParams_opened n params hv hsmall (by decide) hhere
  refine ⟨hg.proper hv.proper, .self hget hh, ?_⟩
  refine .outward hget hh hb ho hn (hv.owner.extends hg.extends) ?_
  refine hv.shows.congr hv.proper.toSound hg.extends fun i hi => ?_
  exact hsame i (Nat.lt_of_le_of_lt hi hv.owner.owner_lt)

/-- The body of a method sees its parameters only. -/
theorem View.method (hv : View t s r names) (hsmall : t.size < 2 ^ 32)
    (hhere : here.scope = (t.push s .method).2) :
    View (Expr.bindParams here n params (t.push s .method).1).2 here.scope here.scope [params] := by
  obtain ⟨hg, -, scope, hget, hh, hb, -, hn⟩ :=
    bindParams_opened n params hv hsmall (by decide) hhere
  exact ⟨hg.proper hv.proper, .self hget hh, .last hget hh hb hn⟩

end

/-! ## Lowering -/

/-- While code is written in scope `s`, the scopes grow from `t` to `t'` and the names that can be
seen become `names'`. -/
structure Declaring (s : ScopeId) (t t' : ScopeTree) (names names' : Names) : Prop where
  size_le : t.size ≤ t'.size
  declares : t'.size ≤ 2 ^ 32 → ∀ r, View t s r names → Declares r t t' names'

theorem Declaring.refl (s : ScopeId) (t : ScopeTree) (names : Names) :
    Declaring s t t names names :=
  ⟨Nat.le_refl _, fun _ r hv => ⟨.refl r t, hv.shows⟩⟩

/-- One piece of text after another declares what both do. -/
theorem Declaring.append {names'' : Names} (h : Declaring s t t' names names')
    (h' : Declaring s t' t'' names' names'') : Declaring s t t'' names names'' := by
  refine ⟨Nat.le_trans h.size_le h'.size_le, fun hsmall r hv => ?_⟩
  have hfirst := h.declares (Nat.le_trans h'.size_le hsmall) r hv
  exact hfirst.trans (h'.declares hsmall r (hv.after hfirst))

/-- An assignment declares its name, unless a body around has it. -/
theorem declaring_assign (s : ScopeId) (t : ScopeTree) (names : Names) (name : String) :
    Declaring s t (if t.isBound s name then t else t.declare s name) names
      (names.declare name) := by
  refine ⟨?_, fun _ r hv => declares_assign hv.proper hv.owner hv.shows name⟩
  split
  · exact Nat.le_refl _
  · exact Nat.le_of_eq (ScopeTree.size_declare t s name).symm

/-- Names that a hoisted scope declares are visible behind it. -/
theorem Declaring.hoisted (h : Declaring (t.push s .hoisted).2 (t.push s .hoisted).1 t' names names') :
    Declaring s t t' names names' := by
  have hsize := ScopeTree.size_push t s .hoisted
  have hle := h.size_le
  refine ⟨by omega, fun hsmall r hv => ?_⟩
  obtain ⟨hpush, hin⟩ := hv.hoisted (by omega)
  exact hpush.trans (h.declares hsmall r hin)

/-- What a body of its own declares is not seen outside. -/
theorem Declaring.body {here : Place} {n : Nat} {params : List String} {kind : ScopeKind}
    {inside : Names} (hkind : kind ≠ .hoisted) (hhere : here.scope = (t.push s kind).2)
    (h : Declaring here.scope (Expr.bindParams here n params (t.push s kind).1).2 t' inside names')
    (hin : ∀ r, t.size < 2 ^ 32 → View t s r names →
      View (Expr.bindParams here n params (t.push s kind).1).2 here.scope here.scope inside) :
    Declaring s t t' names names := by
  have hle : t.size < (Expr.bindParams here n params (t.push s kind).1).2.size := by
    rw [size_bindParams, ScopeTree.size_push]
    exact Nat.lt_succ_self _
  have hle' := h.size_le
  refine ⟨by omega, fun hsmall r hv => ?_⟩
  have hlt : t.size < 2 ^ 32 := by omega
  obtain ⟨hg, hsame, -⟩ := bindParams_opened n params hv hlt hkind hhere
  refine .inside hv hg hsame ?_ (h.declares hsmall here.scope (hin r hlt hv)).toEvolves
  exact Nat.le_of_eq (by rw [hhere, index_push hlt])

theorem Names.declareAll_append (names : Names) (a b : List String) :
    names.declareAll (a ++ b) = (names.declareAll a).declareAll b :=
  List.foldl_append

namespace Expr

mutual

/-- **Lowering declares the names that the text assigns to.** -/
theorem declaring_lower {here : Place} {t t' : ScopeTree} {code : List Instruction} (names : Names)
    (e : Expr) (h : lower here t e = .ok (code, t')) :
    Declaring here.scope t t' names (names.declareAll (assigned e)) := by
  cases e with
  | int | str | sym | nil | bool | self | gvar =>
    cases h
    exact .refl _ _ _
  | var name =>
    unfold lower at h
    split at h <;> cases h <;> exact .refl _ _ _
  | assign name value =>
    unfold lower at h
    obtain ⟨⟨inner, t₁⟩, h₁, h⟩ := bind_eq_ok h
    cases h
    exact (declaring_assign here.scope t names name).append (declaring_lower _ value h₁)
  | gassign name value =>
    unfold lower at h
    obtain ⟨⟨inner, t₁⟩, h₁, h⟩ := bind_eq_ok h
    cases h
    exact declaring_lower names value h₁
  | call receiver name args =>
    unfold lower at h
    split at h
    · rename_i hreceiver _
      cases h
      have hnone : assignedOption receiver = [] := by
        cases receiver with
        | none => rfl
        | some e => cases e <;> first | rfl | cases hreceiver
      rw [assigned, hnone]
      exact .refl _ _ _
    · obtain ⟨⟨target, explicit, t₁⟩, h₁, h⟩ := bind_eq_ok h
      obtain ⟨⟨inner, t₂⟩, h₂, h⟩ := bind_eq_ok h
      cases h
      rw [assigned, Names.declareAll_append]
      exact (declaring_lowerReceiver names receiver h₁).append (declaring_lowerAll _ _ h₂)
  | iter receiver name args params body =>
    unfold lower at h
    obtain ⟨⟨target, explicit, t₁⟩, h₁, h⟩ := bind_eq_ok h
    obtain ⟨⟨inner, t₂⟩, h₂, h⟩ := bind_eq_ok h
    obtain ⟨⟨content, t₃⟩, h₃, h⟩ := bind_eq_ok h
    cases h
    rw [assigned, Names.declareAll_append]
    refine ((declaring_lowerReceiver names receiver h₁).append (declaring_lowerAll _ args h₂)).append ?_
    exact .body (by decide) rfl (declaring_lowerBody _ body h₃) fun r hlt hv => hv.block hlt rfl
  | yield args =>
    unfold lower at h
    obtain ⟨⟨inner, t₁⟩, h₁, h⟩ := bind_eq_ok h
    cases h
    exact declaring_lowerAll names args h₁
  | cond test yes no =>
    unfold lower at h
    obtain ⟨⟨testCode, t₁⟩, h₁, h⟩ := bind_eq_ok h
    obtain ⟨⟨yesCode, t₂⟩, h₂, h⟩ := bind_eq_ok h
    obtain ⟨⟨noCode, t₃⟩, h₃, h⟩ := bind_eq_ok h
    cases h
    rw [assigned, Names.declareAll_append, Names.declareAll_append]
    exact ((declaring_lower names test h₁).append (.hoisted (declaring_lowerOption _ yes h₂))).append
      (.hoisted (declaring_lowerOption _ no h₃))
  | loop test body =>
    unfold lower at h
    obtain ⟨⟨testCode, t₁⟩, h₁, h⟩ := bind_eq_ok h
    obtain ⟨⟨bodyCode, t₂⟩, h₂, h⟩ := bind_eq_ok h
    cases h
    rw [assigned, Names.declareAll_append]
    exact .hoisted ((declaring_lower names test h₁).append (declaring_lowerStatements _ body h₂))
  | conj left right | disj left right =>
    unfold lower at h
    obtain ⟨⟨leftCode, t₁⟩, h₁, h⟩ := bind_eq_ok h
    obtain ⟨⟨rightCode, t₂⟩, h₂, h⟩ := bind_eq_ok h
    cases h
    rw [assigned, Names.declareAll_append]
    exact (declaring_lower names left h₁).append (.hoisted (declaring_lower _ right h₂))
  | neg operand =>
    unfold lower at h
    obtain ⟨⟨inner, t₁⟩, h₁, h⟩ := bind_eq_ok h
    cases h
    exact declaring_lower names operand h₁
  | seq items =>
    unfold lower at h
    exact declaring_lowerBody names items h
  | ret value =>
    unfold lower at h
    split at h
    · cases h
    · obtain ⟨⟨inner, t₁⟩, h₁, h⟩ := bind_eq_ok h
      cases h
      exact declaring_lowerOption names value h₁
  | brk =>
    unfold lower at h
    split at h <;> cases h
    exact .refl _ _ _
  | next value =>
    unfold lower at h
    split at h
    · obtain ⟨⟨inner, t₁⟩, h₁, h⟩ := bind_eq_ok h
      cases h
      exact declaring_lowerDropped names value h₁
    · split at h
      · obtain ⟨⟨inner, t₁⟩, h₁, h⟩ := bind_eq_ok h
        cases h
        exact declaring_lowerOption names value h₁
      · cases h
  | method name params body =>
    unfold lower at h
    obtain ⟨⟨content, t₁⟩, h₁, h⟩ := bind_eq_ok h
    cases h
    exact .body (by decide) rfl (declaring_lowerBody _ body h₁) fun r hlt hv => hv.method hlt rfl

theorem declaring_lowerOption {here : Place} {t t' : ScopeTree} {code : List Instruction}
    (names : Names) (e : Option Expr) (h : lowerOption here t e = .ok (code, t')) :
    Declaring here.scope t t' names (names.declareAll (assignedOption e)) := by
  cases e with
  | none =>
    cases h
    exact .refl _ _ _
  | some e =>
    unfold lowerOption at h
    exact declaring_lower names e h

theorem declaring_lowerDropped {here : Place} {t t' : ScopeTree} {code : List Instruction}
    (names : Names) (e : Option Expr) (h : lowerDropped here t e = .ok (code, t')) :
    Declaring here.scope t t' names (names.declareAll (assignedOption e)) := by
  cases e with
  | none =>
    cases h
    exact .refl _ _ _
  | some e =>
    unfold lowerDropped at h
    obtain ⟨⟨inner, t₁⟩, h₁, h⟩ := bind_eq_ok h
    cases h
    exact declaring_lower names e h₁

theorem declaring_lowerReceiver {here : Place} {t t' : ScopeTree} {code : List Instruction}
    {explicit : Bool} (names : Names) (e : Option Expr)
    (h : lowerReceiver here t e = .ok (code, explicit, t')) :
    Declaring here.scope t t' names (names.declareAll (assignedOption e)) := by
  cases e with
  | none =>
    cases h
    exact .refl _ _ _
  | some e =>
    rcases lowerReceiver_some_eq_ok h with ⟨rfl, -, -, rfl⟩ | ⟨-, -, h₁⟩
    · exact .refl _ _ _
    · exact declaring_lower names e h₁

theorem declaring_lowerAll {here : Place} {t t' : ScopeTree} {code : List Instruction}
    (names : Names) (es : List Expr) (h : lowerAll here t es = .ok (code, t')) :
    Declaring here.scope t t' names (names.declareAll (assignedAll es)) := by
  cases es with
  | nil =>
    cases h
    exact .refl _ _ _
  | cons e rest =>
    unfold lowerAll at h
    obtain ⟨⟨first, t₁⟩, h₁, h⟩ := bind_eq_ok h
    obtain ⟨⟨more, t₂⟩, h₂, h⟩ := bind_eq_ok h
    cases h
    rw [assignedAll, Names.declareAll_append]
    exact (declaring_lower names e h₁).append (declaring_lowerAll _ rest h₂)

theorem declaring_lowerStatements {here : Place} {t t' : ScopeTree} {code : List Instruction}
    (names : Names) (es : List Expr) (h : lowerStatements here t es = .ok (code, t')) :
    Declaring here.scope t t' names (names.declareAll (assignedAll es)) := by
  cases es with
  | nil =>
    cases h
    exact .refl _ _ _
  | cons e rest =>
    unfold lowerStatements at h
    obtain ⟨⟨first, t₁⟩, h₁, h⟩ := bind_eq_ok h
    obtain ⟨⟨more, t₂⟩, h₂, h⟩ := bind_eq_ok h
    cases h
    rw [assignedAll, Names.declareAll_append]
    exact (declaring_lower names e h₁).append (declaring_lowerStatements _ rest h₂)

theorem declaring_lowerBody {here : Place} {t t' : ScopeTree} {code : List Instruction}
    (names : Names) (es : List Expr) (h : lowerBody here t es = .ok (code, t')) :
    Declaring here.scope t t' names (names.declareAll (assignedAll es)) := by
  match es with
  | [] =>
    cases h
    exact .refl _ _ _
  | [e] =>
    unfold lowerBody at h
    have := declaring_lower names e h
    rwa [← List.append_nil (assigned e)] at this
  | e :: e' :: rest =>
    unfold lowerBody at h
    obtain ⟨⟨first, t₁⟩, h₁, h⟩ := bind_eq_ok h
    obtain ⟨⟨more, t₂⟩, h₂, h⟩ := bind_eq_ok h
    cases h
    rw [assignedAll, Names.declareAll_append]
    exact (declaring_lower names e h₁).append (declaring_lowerBody _ (e' :: rest) h₂)

end

end Expr

end StackCode
