import StackCode.Proofs.UnitCalls

/-!
# What single instructions do in C

A region that has done what the code before an instruction did, and is then changed as the generator
changes it for the instruction, has done what the instruction does as well (`follows_plain`). Most
instructions add an operand or a statement. The one exception forgets an operand: it may turn the
declaration that ends the region into a bare computation (`Follows.pop`).
-/

namespace StackCode.Native

open CUnit (Atom Operand Rhs Stmt Region Draft Aligned Advances)
open Machine (State Stop Ended Setup Performs Exec thenDo)

variable {u : CUnit} {t : ScopeTree} {cx : Setup} {k : Nat} {c : Call} {s s' : State}
  {m m' : Memory} {v : Value} {o : Operand} {a : Around} {hi : Nat} {before : Temps}
  {p p' : Point} {r r' : Region} {d d' e : Draft} {K : Partial Stop State Ended}
  {i : Instruction} {act : Nat → Exec Unit} {code : List Instruction} {values : List Value}
  {below held : List Operand}

/-! ## Regions that grow -/

/-- A point that is not behind a block literal. -/
theorem At.update (h : At u t c hi before p r d s m) (hp : p'.awaiting = false)
    (hruns : Runs u t c values s' m') (ht : m'.temps = m.temps)
    (hvalues : Values u c m.temps r'.stack values) (hd : d.nextTemp ≤ d'.nextTemp)
    (hcode : ∀ n value rest, r'.code = .declare n value :: rest → before n = none) :
    At u t c hi before p' r' d' s' m' where
  operands := ⟨values, hruns, ht ▸ hvalues, fun h => absurd (hp.symm.trans h) (by decide)⟩
  keeps := ht ▸ h.keeps
  fresh := fun n hn hhi => ht ▸ h.fresh n (Nat.le_trans hd hn) hhi
  declared := hcode

/-- One more operand. -/
theorem At.push (h : At u t c hi before p r d s m) (hp : p'.awaiting = false)
    (ho : operand? u c.context m.temps o = some v) (hd : d.nextTemp ≤ d'.nextTemp) :
    At u t c hi before p' (r.push o) d' { s.ticked with stack := v :: s.stack } m := by
  obtain ⟨values, hruns, hvalues, -⟩ := h.operands
  exact h.update hp (hruns.ticked.push v) rfl (.cons ho hvalues) hd h.declared

/-- One more operand, which is held by a temp of its own. -/
theorem At.memoize (h : At u t c hi before p r d s m) (hvalues : Values u c m.temps below values)
    (hruns : Runs u t c (v :: values) s' m') (ht : m'.temps = m.temps)
    (he : d.nextTemp ≤ e.nextTemp) (hhi : e.nextTemp < hi)
    (hawaiting : p'.awaiting = true → ∃ id, v = .proc id ∧ id < s'.procs.size) (value : Rhs) :
    At u t c hi before p' ({ r with stack := below }.memoize e.nextTemp value) (e.addTemps 1) s'
      { m' with temps := m'.temps.set e.nextTemp v } := by
  have hnone : m.temps e.nextTemp = none := h.fresh _ he hhi
  have hkeeps : m.temps.Keeps (m'.temps.set e.nextTemp v) := ht ▸ Temps.keeps_set hnone v
  have hnew : (m'.temps.set e.nextTemp v) e.nextTemp = some v := if_pos rfl
  refine ⟨⟨v :: values, ?_, .cons hnew (hvalues.keeps hkeeps), fun hp => ?_⟩, h.keeps.trans hkeeps,
    fun n hn hlt => ?_, ?_⟩
  · exact hruns.withTemps _
  · obtain ⟨id, rfl, hid⟩ := hawaiting hp
    exact ⟨id, values, rfl, hid⟩
  · have hn : e.nextTemp + 1 ≤ n := hn
    show (if n = e.nextTemp then some v else m'.temps n) = none
    rw [if_neg (by omega), ht]
    exact h.fresh n (by omega) hlt
  · rintro n value' rest heq
    cases heq
    cases hbefore : before e.nextTemp with
    | none => rfl
    | some w => exact absurd ((h.keeps _ w hbefore).symm.trans hnone) (by simp)

/-- An instruction that just does something. -/
theorem den_one (hcx : cx.Unlimited) (hp : Performs cx i act) {start : Nat}
    (hact : act start s.ticked = .ok () s') :
    Machine.den cx ⟨start, [i]⟩ s = some (.ok (none, start + 1) s') :=
  (Machine.den_act hcx hp hact).trans (Machine.den_nil _ _)

/-- An instruction that adds an operand. -/
theorem Follows.push (hK : Follows u t k c a hi before m (K s) p r d) (hcx : cx.Unlimited)
    (hp : Performs cx i act) (hawaiting : p'.awaiting = false) (hd : d.nextTemp ≤ e.nextTemp)
    (h : ∀ index s m values, Runs u t c values s m → Values u c m.temps r.stack values →
      ∃ v, operand? u c.context m.temps o = some v ∧
        act index s = .ok () { s with stack := v :: s.stack }) :
    Follows u t k c a hi before m (K.bind (thenDo cx [i]) s) p' (r.push o) e := by
  refine hK.extend [] (List.append_nil _).symm fun start s m hat => ?_
  obtain ⟨values, hruns, hvalues, -⟩ := hat.operands
  obtain ⟨v, ho, hact⟩ := h start s.ticked m values hruns.ticked hvalues
  rw [den_one hcx hp hact, den_nil]
  exact .some (.next (hat.push hawaiting ho hd))

/-- An instruction that adds a statement and goes on. -/
theorem Follows.emit (hK : Follows u t k c a hi before m (K s) p r d) (hcx : cx.Unlimited)
    (hp : Performs cx i act) (hawaiting : p'.awaiting = false) (hd : d.nextTemp ≤ e.nextTemp)
    {stmt : Stmt} (hstmt : ∀ n value, stmt ≠ .declare n value)
    (h : ∀ index s m values, Runs u t c values s m → Values u c m.temps r.stack values →
      ∃ values' s' m', act index s = .ok () s' ∧
        den u k c.context [stmt] m = some (.ok .next m') ∧ Runs u t c values' s' m' ∧
        m'.temps = m.temps ∧ Values u c m.temps below values') :
    Follows u t k c a hi before m (K.bind (thenDo cx [i]) s) p'
      ({ r with stack := below }.emit stmt) e := by
  refine hK.extend [stmt] (Region.statements_emit _ _) fun start s m hat => ?_
  obtain ⟨values, hruns, hvalues, -⟩ := hat.operands
  obtain ⟨values', s', m', hact, hden, hruns', ht, hvalues'⟩ :=
    h start s.ticked m values hruns.ticked hvalues
  rw [den_one hcx hp hact, hden]
  refine .some (.next (hat.update hawaiting hruns' ht hvalues' hd ?_))
  rintro n value rest heq
  cases heq
  exact absurd rfl (hstmt n value)

/-- Code that computes a value. -/
theorem Follows.memoize (hK : Follows u t k c a hi before m (K s) p r d)
    (hawaiting : p'.awaiting = false) (he : d.nextTemp ≤ e.nextTemp) (hhi : e.nextTemp < hi)
    {value : Rhs} (h : ∀ start s m, At u t c hi before p r d s m →
      ∃ vs, Values u c m.temps below vs ∧ Option.Rel (Gives u t c vs m.temps)
        (Machine.den cx ⟨start, code⟩ s) (computeDen u k c.context value m)) :
    Follows u t k c a hi before m (K.bind (thenDo cx code) s) p'
      ({ r with stack := below }.memoize e.nextTemp value) (e.addTemps 1) := by
  refine hK.extend [.declare e.nextTemp value] (Region.statements_emit _ _)
    fun start s m hat => ?_
  obtain ⟨vs, hvalues, hrel⟩ := h start s m hat
  rw [den_declare]
  unfold Partial.bind
  revert hrel
  generalize Machine.den cx ⟨start, code⟩ s = x
  generalize computeDen u k c.context value m = y
  rintro (hgives | _)
  · cases hgives with
    | @value v s' m' _ hruns ht =>
      have hnone : m'.temps e.nextTemp = none := by
        rw [ht]
        exact hat.fresh _ he hhi
      have hdeclare : andNext (declare e.nextTemp v) m' =
          .ok .next { m' with temps := m'.temps.set e.nextTemp v } :=
        bind_eq_of_ok (declare_eq hnone v)
      show Option.Rel _ _ (some (andNext (declare e.nextTemp v) m'))
      rw [hdeclare]
      refine .some (.next (hat.memoize hvalues hruns ht he hhi ?_ value))
      exact fun hp => absurd (hawaiting.symm.trans hp) (by decide)
    | halt h => exact .some (.leaves (.halt h))
    | error he h => exact .some (.leaves (.error he h))
  · exact .none

/-! ## Forgetting an operand -/

/-- Statements that end with a declaration, and with the bare computation instead. -/
theorem den_declare_eval (stmts : List Stmt) (n : Nat) (value : Rhs) (cx : Context) (m : Memory) :
    (den u k cx (stmts ++ [Stmt.declare n value]) m = den u k cx (stmts ++ [Stmt.eval value]) m ∧
      ∀ m', den u k cx (stmts ++ [Stmt.eval value]) m ≠ some (.ok .next m')) ∨
    ∃ v m', den u k cx (stmts ++ [Stmt.eval value]) m = some (.ok .next m') ∧
      den u k cx (stmts ++ [Stmt.declare n value]) m = some (andNext (declare n v) m') := by
  rw [den_append, den_append]
  unfold Partial.bind
  rcases den u k cx stmts m with _ | ⟨flow, m₁⟩ | ⟨e, m₁⟩
  · exact .inl ⟨rfl, fun _ => nofun⟩
  · cases flow with
    | next =>
      show (den u k cx [.declare n value] m₁ = den u k cx [.eval value] m₁ ∧
          ∀ m', den u k cx [.eval value] m₁ ≠ _) ∨
        ∃ v m', den u k cx [.eval value] m₁ = _ ∧ den u k cx [.declare n value] m₁ = _
      rw [den_declare, den_eval]
      unfold Partial.bind
      rcases computeDen u k cx value m₁ with _ | ⟨v, m₂⟩ | ⟨e, m₂⟩
      · exact .inl ⟨rfl, fun _ => nofun⟩
      · exact .inr ⟨v, m₂, rfl, rfl⟩
      · exact .inl ⟨rfl, fun _ => nofun⟩
    | _ => exact .inl ⟨rfl, fun _ => nofun⟩
  · exact .inl ⟨rfl, fun _ => nofun⟩

/-- Without the declaration the temp is not there, and all else is as it was. -/
theorem rel_eval_of_declare {x : Option (EStateM.Result Stop State Ended)}
    {N : State → Memory → Prop} {stmts : List Stmt} {n : Nat} {value : Rhs}
    (h : Option.Rel (Ends u t c a N) x (den u k c.context (stmts ++ [Stmt.declare n value]) m)) :
    Option.Rel (Ends u t c a fun s m => m.temps n = none ∧
        ∃ v, N s { m with temps := m.temps.set n v })
      x (den u k c.context (stmts ++ [Stmt.eval value]) m) := by
  rcases den_declare_eval (u := u) (k := k) stmts n value c.context m with
    ⟨heq, hnext⟩ | ⟨v, m', heval, hdeclare⟩
  · rw [heq] at h
    revert h hnext
    generalize den u k c.context (stmts ++ [Stmt.eval value]) m = y
    rintro (h | _) hnext
    · cases h with
      | next => exact absurd rfl (hnext _)
      | leaves h => exact .some (.leaves h)
    · exact .none
  · rw [hdeclare] at h
    rw [heval]
    cases hn : m'.temps n with
    | some old =>
      -- a temp that was there already cannot have been declared
      rw [andNext, bind_eq_of_error (declare_eq_error hn v)] at h
      cases h with
      | some h =>
        cases h with
        | leaves h =>
          cases h with
          | error he _ => cases he
    | none =>
      rw [andNext, bind_eq_of_ok (declare_eq hn v)] at h
      cases h with
      | some h =>
        cases h with
        | next h => exact .some (.next ⟨hn, v, h⟩)
        | leaves h => cases h

/-- The machine forgets its last operand. -/
theorem rel_pop (hcx : cx.Unlimited) (scope : ScopeId) {N N' : State → Memory → Prop}
    {y : Option (EStateM.Result Interrupt Memory Flow)}
    (h : Option.Rel (Ends u t c a N) (K s) y)
    (hpop : ∀ s m, N s m → ∃ v values, s.stack = v :: values ∧ s.base ≤ values.length ∧
      N' { s.ticked with stack := values } m) :
    Option.Rel (Ends u t c a N') (K.bind (thenDo cx [⟨.pop, scope⟩]) s) y := by
  unfold Partial.bind
  revert h
  generalize K s = x
  rintro (h | _)
  · cases h with
    | @next s m stop h =>
      obtain ⟨v, values, hs, hbase, h'⟩ := hpop s m h
      have hp : Performs cx ⟨.pop, scope⟩ (fun index => do let _ ← Machine.pop index) :=
        fun _ _ _ => rfl
      have hact : (do let _ ← Machine.pop stop : Exec Unit) s.ticked =
          .ok () { s.ticked with stack := values } :=
        Machine.bind_of_eq_ok (Machine.pop_of_stack (s := s.ticked) hs hbase stop)
      show Option.Rel _ (Machine.den cx ⟨stop, [⟨.pop, scope⟩]⟩ s) _
      rw [den_one hcx hp hact]
      exact .some (.next h')
    | leaves h =>
      have hleaves := h
      cases h <;> exact .some (.leaves hleaves)
  · exact .none

/-- The operand is gone, and perhaps the temp that held it. -/
theorem At.pop (h : At u t c hi before p r d s m) (hawaiting : p'.awaiting = false)
    (hs : r.stack = o :: below) (hr : r'.stack = below)
    (hcode : ∀ n value rest, r'.code = .declare n value :: rest → before n = none)
    (temps : Temps) (hvalues : ∀ vs, Values u c m.temps below vs → Values u c temps below vs)
    (hkeeps : before.Keeps temps) (hfresh : ∀ n, m.temps n = none → temps n = none) :
    ∃ v values, s.stack = v :: values ∧ s.base ≤ values.length ∧
      At u t c hi before p' r' d { s.ticked with stack := values } { m with temps } := by
  obtain ⟨all, hruns, hall, -⟩ := h.operands
  rw [hs] at hall
  cases hall with
  | @cons _ v _ values _ hrest =>
    refine ⟨v, values ++ c.below, hruns.stack, hruns.base_le values, ⟨values, ?_, ?_, fun hp => ?_⟩,
      hkeeps, fun n hn hlt => hfresh n (h.fresh n hn hlt), hcode⟩
    · exact hruns.restack ⟨_, rfl⟩ ⟨_, rfl⟩
    · rw [hr]
      exact hvalues _ hrest
    · exact absurd (hawaiting.symm.trans hp) (by decide)

/-- **An operand is forgotten.** -/
theorem Follows.pop (hK : Follows u t k c a hi before m (K s) p r d) (hcx : cx.Unlimited)
    (scope : ScopeId) (hawaiting : p'.awaiting = false) (hs : r.stack = o :: below)
    (hr : ∀ index, r.discard index = .ok r') :
    Follows u t k c a hi before m (K.bind (thenDo cx [⟨.pop, scope⟩]) s) p' r' d := by
  obtain ⟨r'', hr'', hstack, hcode⟩ := Region.exists_discard hs
  obtain rfl : r' = r'' := Except.ok.inj ((hr 0).symm.trans (hr'' 0))
  unfold Follows at hK ⊢
  rcases hcode with hcode | ⟨n, value, rest, rfl, hn, hcode, hcode'⟩
  · have hstatements : r'.statements = r.statements := congrArg List.reverse hcode
    rw [hstatements]
    refine rel_pop hcx scope hK fun s m hat => ?_
    exact hat.pop hawaiting hs hstack (hcode ▸ hat.declared) m.temps (fun _ h => h) hat.keeps
      fun _ h => h
  · -- the temp was declared by the last statement, so that nothing else can have seen it
    have hstatements : r.statements = rest.reverse ++ [.declare n value] :=
      (congrArg List.reverse hcode).trans List.reverse_cons
    have hstatements' : r'.statements = rest.reverse ++ [.eval value] :=
      (congrArg List.reverse hcode').trans List.reverse_cons
    rw [hstatements] at hK
    rw [hstatements']
    refine rel_pop hcx scope (rel_eval_of_declare hK) ?_
    rintro s m ⟨hnone, v, hat⟩
    have hother : ∀ j, j ≠ n → (m.temps.set n v) j = m.temps j := fun j hj => if_neg hj
    refine hat.pop hawaiting hs hstack ?_ m.temps (fun _ h => (values_set_iff hn).mp h) ?_ ?_
    · rintro j value' rest' heq
      rw [hcode'] at heq
      cases heq
    · intro j w hj
      have hne : j ≠ n := fun he => by
        rw [he, hat.declared n value rest hcode] at hj
        cases hj
      exact (hother j hne).symm.trans (hat.keeps j w hj)
    · intro j hj
      by_cases he : j = n
      · rw [he]
        exact hnone
      · exact (hother j he).symm.trans hj

/-! ## All instructions -/

/-- The region stands where the code stands that `a` is around. The operands from before the
innermost loop are `held`. -/
structure Situated (u : CUnit) (c : Call) (a : Around) (before : Temps) (p : Point) (r : Region)
    (held : List Operand) : Prop where
  aligned : Aligned p r held
  values : Values u c before held a.held
  site : p.site = a.site
  keeps : a.temps.Keeps before
  home : c.home = p.site.scope

/-- A signal leaves the operands from before the innermost loop alone. -/
theorem Situated.left (h : Situated u c a before p r held) (hkeeps : before.Keeps m.temps)
    {os : List Operand} (hruns : Runs u t c values s m) (hvalues : Values u c m.temps os values)
    (hheld : held <:+ os) : Left u t c a s m := by
  obtain ⟨top, rfl⟩ := hheld
  obtain ⟨vs, vs', rfl, -, hrest⟩ := hvalues.exists_append
  obtain rfl := hrest.unique (h.values.keeps hkeeps)
  exact ⟨⟨vs, hruns⟩, h.keeps.trans hkeeps⟩

theorem eq_of_step {r₁ r₂ : Region} {d₁ d₂ : Draft}
    (h : ∀ run after, CUnit.step t run i after r d = .ok ((r₁, after), d₁))
    (h' : ∀ run after, CUnit.step t run i after r d = .ok ((r₂, after), d₂)) :
    r₁ = r₂ ∧ d₁ = d₂ := by
  have heq := Except.ok.inj ((h (fun _ r => pure r) ⟨0, []⟩).symm.trans (h' _ _))
  exact ⟨congrArg (·.1.1) heq, congrArg (·.2) heq⟩

section

variable (hag : Agreed u t cx k c) (hK : Follows u t k c a hi before m (K s) p r d)
  (hawaiting : p'.awaiting = false) {scope : ScopeId} {name : String}

include hag hK hawaiting

/-- A literal. -/
theorem follows_literal {atom : Atom} (hd : d.nextTemp ≤ d'.nextTemp)
    (hatom : atom? u c.context atom = some v) (hp : Performs cx i act)
    (hact : ∀ index s m values, Runs u t c values s m →
      act index s = .ok () { s with stack := v :: s.stack }) :
    Follows u t k c a hi before m (K.bind (thenDo cx [i]) s) p' (r.push (.literal atom)) d' :=
  hK.push hag.unlimited hp hawaiting hd fun index s m values hruns _ =>
    ⟨v, hatom, hact index s m values hruns⟩

theorem follows_dup (hs : r.stack = o :: below) :
    Follows u t k c a hi before m (K.bind (thenDo cx [⟨.dup, scope⟩]) s) p' (r.push o) d := by
  have hp : Performs cx ⟨.dup, scope⟩ (fun index => do Machine.push (← Machine.peek index)) :=
    fun _ _ _ => rfl
  refine hK.push hag.unlimited hp hawaiting (Nat.le_refl _) fun index s m values hruns hvalues => ?_
  rw [hs] at hvalues
  cases hvalues with
  | @cons _ v _ values ho _ =>
    have hpeek : Machine.peek index s = .ok v s := by
      have hlt : s.base < (v :: values ++ c.below).length :=
        Nat.lt_succ_of_le (hruns.base_le values)
      unfold Machine.peek
      rw [hruns.stack]
      exact if_pos hlt
    exact ⟨v, ho, Machine.bind_of_eq_ok hpeek⟩

/-- A variable is read. -/
theorem follows_getLocal {found : Resolved} (hfound : t.resolve? scope name false = some (.ok found))
    (hscope : t.hoistTarget? scope = some c.home) (hhi : d.nextTemp < hi) :
    Follows u t k c a hi before m (K.bind (thenDo cx [⟨.getLocal name, scope⟩]) s) p'
      (r.memoize d.nextTemp (.load (.local found.depth found.slot name))) (d.addTemps 1) := by
  refine hK.memoize hawaiting (Nat.le_refl _) hhi fun start s m hat => ?_
  obtain ⟨values, hruns, hvalues, -⟩ := hat.operands
  obtain ⟨v, hload, hvalue⟩ := hruns.ticked.getLocal hag.proper hag.scopes hfound hscope start
  refine ⟨values, hvalues, ?_⟩
  rw [den_one hag.unlimited (Machine.performs_getLocal cx name scope) hload, computeDen_load hvalue]
  exact .some (.value (hruns.ticked.push v) rfl)

/-- A variable is changed. -/
theorem follows_setLocal {localOnly : Bool} {found : Resolved}
    (hfound : t.resolve? scope name localOnly = some (.ok found))
    (hscope : t.hoistTarget? scope = some c.home) (hs : r.stack = o :: below) :
    Follows u t k c a hi before m (K.bind (thenDo cx [⟨.setLocal name localOnly, scope⟩]) s) p'
      ({ r with stack := below }.emit (.store (.local found.depth found.slot name) o)) d := by
  refine hK.emit hag.unlimited (Machine.performs_setLocal cx name localOnly scope) hawaiting
    (Nat.le_refl _) (fun _ _ => nofun) fun index s m values hruns hvalues => ?_
  rw [hs] at hvalues
  cases hvalues with
  | @cons _ v _ values ho hrest =>
    obtain ⟨s', m', hact, hstore, hruns', ht⟩ :=
      hruns.setLocal hag.proper hag.separate hag.scopes hfound hscope index
    exact ⟨values, s', m', hact, den_store ho hstore, hruns', ht, hrest⟩

theorem follows_getGlobal (hu : (d.addSymbol name).Within u) (hhi : d.nextTemp < hi) :
    Follows u t k c a hi before m (K.bind (thenDo cx [⟨.getGlobal name, scope⟩]) s) p'
      (r.memoize d.nextTemp (.load (.global (d.symbolRef name))))
      ((d.addSymbol name).addTemps 1) := by
  have hp : Performs cx ⟨.getGlobal name, scope⟩
      (fun _ => do Machine.push (((← get).globals.get? name).getD .nil)) := fun _ _ _ => rfl
  refine hK.memoize (e := d.addSymbol name) hawaiting (Nat.le_refl _) hhi fun start s m hat => ?_
  obtain ⟨values, hruns, hvalues, -⟩ := hat.operands
  have hload : m.load? c.frame.env (.global (d.symbolRef name)) =
      some ((s.globals.get? name).getD .nil) :=
    hruns.holds.globals _ name (hu.symbolRef name)
  refine ⟨values, hvalues, ?_⟩
  rw [den_one hag.unlimited hp rfl, computeDen_load hload]
  exact .some (.value (hruns.ticked.push _) rfl)

theorem follows_setGlobal (hu : (d.addSymbol name).Within u) (hs : r.stack = o :: below) :
    Follows u t k c a hi before m (K.bind (thenDo cx [⟨.setGlobal name, scope⟩]) s) p'
      ({ r with stack := below }.emit (.store (.global (d.symbolRef name)) o))
      (d.addSymbol name) := by
  have hp : Performs cx ⟨.setGlobal name, scope⟩ (fun index => do
      let v ← Machine.pop index
      modify fun s => { s with globals := s.globals.insert name v }) := fun _ _ _ => rfl
  refine hK.emit (e := d.addSymbol name) hag.unlimited hp hawaiting (Nat.le_refl _)
    (fun _ _ => nofun) fun index s m values hruns hvalues => ?_
  rw [hs] at hvalues
  cases hvalues with
  | @cons _ v _ values ho hrest =>
    obtain ⟨hpop, hruns'⟩ := hruns.pop index
    have hname := hu.symbolRef name
    have hstore : m.store? c.frame.env v (.global (d.symbolRef name)) =
        some { m with globals := m.globals.setIfInBounds (d.symbolRef name).index v } := by
      simp only [Memory.store?, hruns.holds.globals _ name hname]
      rfl
    refine ⟨values, _, _, Machine.bind_of_eq_ok hpop, den_store ho hstore, ?_, rfl, hrest⟩
    exact hruns'.update (hruns'.holds.withGlobal hag.symbols hname v) rfl (.of_eq rfl rfl) rfl

theorem follows_setVisibility (visibility : Visibility) :
    Follows u t k c a hi before m (K.bind (thenDo cx [⟨.setVisibility visibility, scope⟩]) s) p'
      (r.emit (.setVisibility visibility)) d := by
  have hp : Performs cx ⟨.setVisibility visibility, scope⟩
      (fun _ => modify fun s => { s with visibility }) := fun _ _ _ => rfl
  refine hK.emit hag.unlimited hp hawaiting (Nat.le_refl _) (fun _ _ => nofun)
    fun index s m values hruns hvalues => ?_
  refine ⟨values, _, _, rfl, den_setVisibility visibility m, ?_, rfl, hvalues⟩
  exact hruns.update (hruns.holds.withVisibility visibility) rfl (.of_eq rfl rfl) hruns.stack

/-- The arguments are counted. -/
theorem follows_checkArgs (expected : UInt64) :
    Follows u t k c a hi before m (K.bind (thenDo cx [⟨.checkArgs expected, scope⟩]) s) p'
      (r.emit (.checkArgs expected)) d := by
  refine hK.extend [.checkArgs expected] (Region.statements_emit _ _)
    fun start s m hat => ?_
  obtain ⟨values, hruns, hvalues, -⟩ := hat.operands
  have hp := Machine.performs_checkArgs cx expected scope
  have hcheck : Machine.checkArity expected start s.ticked =
      (if c.frame.args.length ≠ expected.toNat
        then Machine.raise (.wrongArity c.frame.args.length expected.toNat) else pure () : Exec Unit)
        s.ticked :=
    Machine.bind_of_eq_ok (Machine.frame_of_frames hruns.ticked.frames start)
  rw [den_checkArgs]
  show Option.Rel _ _ (some (if c.frame.args.length ≠ expected.toNat then _ else _))
  by_cases hcount : c.frame.args.length ≠ expected.toNat
  · rw [if_pos hcount] at hcheck
    rw [Machine.den_act_error hag.unlimited hp hcheck, if_pos hcount]
    exact .some (.leaves (.error .raised hruns.holds.output))
  · rw [if_neg hcount] at hcheck
    rw [den_one hag.unlimited hp hcheck, if_neg hcount]
    refine .some (.next (hat.update hawaiting hruns.ticked rfl hvalues (Nat.le_refl _) ?_))
    exact fun _ _ _ => nofun

/-- A message is sent. -/
theorem follows_send {target block : Option Operand} {args : List Operand} {argc : UInt64}
    {message : String} (hargc : args.length = argc.toNat)
    (hs : r.stack = block.toList ++ (args.reverse ++ (target.toList ++ below)))
    (hblock : block.isSome = p.awaiting) (hu : (d.addSymbol message).Within u)
    (hhi : d.nextTemp < hi) :
    Follows u t k c a hi before m
      (K.bind (thenDo cx [⟨.send message argc target.isSome block.isSome, scope⟩]) s) p'
      ({ r with stack := below }.memoize d.nextTemp (.send target (d.symbolRef message) args block))
      ((d.addSymbol message).addTemps 1) := by
  refine hK.memoize (e := d.addSymbol message) hawaiting (Nat.le_refl _) hhi fun start s m hat => ?_
  obtain ⟨values, hruns, hvalues, hproc⟩ := hat.operands
  rw [hs] at hvalues
  obtain ⟨top, rest, rfl, htop, hvalues⟩ := hvalues.exists_append
  obtain ⟨argv, rest, rfl, hargv, hvalues⟩ := hvalues.exists_append
  obtain ⟨first, vs, rfl, hfirst, hvs⟩ := hvalues.exists_append
  obtain ⟨receiver, rfl, hreceiver⟩ := hfirst.exists_option
  -- behind a block literal the last operand is a block
  obtain ⟨id, rfl, hid, hvalid⟩ : ∃ id : Option Machine.ProcId, top = (id.map Value.proc).toList ∧
      id.isSome = block.isSome ∧ ∀ i, id = some i → i < s.procs.size := by
    cases block with
    | none =>
      cases htop
      exact ⟨none, rfl, rfl, fun _ => nofun⟩
    | some o =>
      obtain ⟨id, rest', heq, hlt⟩ := hproc (hblock.symm.trans rfl)
      cases htop with
      | cons _ hnil =>
        cases hnil
        cases heq
        exact ⟨some id, rfl, rfl, fun i hi => by cases hi; exact hlt⟩
  have hargs : Values u c m.temps args argv.reverse := hargv.of_reverse
  refine ⟨vs, hvs, ?_⟩
  rw [← hreceiver, ← hid]
  refine hag.gives_send ?_ ?_ (hu.symbolRef message) hfirst hargs htop hvalid start
  · rw [List.reverse_reverse]
    exact hruns
  · rw [← hargs.length_eq, hargc]

/-- The block of the call is called. -/
theorem follows_yield {args : List Operand} {argc : UInt64} (hargc : args.length = argc.toNat)
    (hs : r.stack = args.reverse ++ below) (hhi : d.nextTemp < hi) :
    Follows u t k c a hi before m (K.bind (thenDo cx [⟨.yield argc, scope⟩]) s) p'
      ({ r with stack := below }.memoize d.nextTemp (.yield args)) (d.addTemps 1) := by
  refine hK.memoize hawaiting (Nat.le_refl _) hhi fun start s m hat => ?_
  obtain ⟨values, hruns, hvalues, -⟩ := hat.operands
  rw [hs] at hvalues
  obtain ⟨argv, vs, rfl, hargv, hvs⟩ := hvalues.exists_append
  have hargs : Values u c m.temps args argv.reverse := hargv.of_reverse
  refine ⟨vs, hvs, hag.gives_yield ?_ ?_ hargs start⟩
  · rw [List.reverse_reverse]
    exact hruns
  · rw [← hargs.length_eq, hargc]

end

/-- An instruction that ends the segment. What the region would be behind it does not matter. -/
theorem Follows.leave (hK : Follows u t k c a hi before m (K s) p r d) {stmt : Stmt}
    (h : ∀ start s m, At u t c hi before p r d s m →
      ∃ x y, Machine.den cx ⟨start, code⟩ s = some x ∧ den u k c.context [stmt] m = some y ∧
        Leaves u t c a x y) :
    Follows u t k c a hi before m (K.bind (thenDo cx code) s) p'
      ({ r with stack := below }.emit stmt) d' := by
  refine hK.extend [stmt] (Region.statements_emit _ _) fun start s m hat => ?_
  obtain ⟨x, y, hx, hy, hleaves⟩ := h start s m hat
  rw [hx, hy]
  exact .some (.leaves hleaves)

theorem follows_halt (hcx : cx.Unlimited) (hK : Follows u t k c a hi before m (K s) p r d)
    (scope : ScopeId) : Follows u t k c a hi before m (K.bind (thenDo cx [⟨.halt, scope⟩]) s) p'
      (r.emit .exit) d := by
  refine hK.leave fun start s m hat => ?_
  obtain ⟨values, hruns, -, -⟩ := hat.operands
  exact ⟨_, _, Machine.den_signal hcx rfl, den_exit m, .halt hruns.holds.output⟩

section

variable (hcx : cx.Unlimited) (hsit : Situated u c a before p r held)
  (hK : Follows u t k c a hi before m (K s) p r d) {scope : ScopeId}

include hcx hsit hK

theorem follows_breakOut (hloop : p.site.loop.isSome) :
    Follows u t k c a hi before m (K.bind (thenDo cx [⟨.breakOut, scope⟩]) s) p'
      (r.emit .breakLoop) d := by
  refine hK.leave fun start s m hat => ?_
  obtain ⟨values, hruns, hvalues, -⟩ := hat.operands
  refine ⟨_, _, Machine.den_signal hcx rfl, den_breakLoop m, ?_⟩
  exact .breakLoop (hsit.site ▸ hloop)
    (hsit.left hat.keeps hruns.ticked hvalues hsit.aligned.held)

theorem follows_again (hloop : p.site.loop.isSome) :
    Follows u t k c a hi before m (K.bind (thenDo cx [⟨.next false, scope⟩]) s) p'
      (r.emit .continueLoop) d := by
  refine hK.leave fun start s m hat => ?_
  obtain ⟨values, hruns, hvalues, -⟩ := hat.operands
  refine ⟨_, _, Machine.den_signal hcx rfl, den_continueLoop m, ?_⟩
  exact .continueLoop (hsit.site ▸ hloop)
    (hsit.left hat.keeps hruns.ticked hvalues hsit.aligned.held)

variable (hs : r.stack = o :: below) (hheld : held <:+ below)

include hs hheld

theorem follows_ret (hbody : p.site.body ≠ .block) :
    Follows u t k c a hi before m (K.bind (thenDo cx [⟨.ret, scope⟩]) s) p'
      ({ r with stack := below }.emit (.ret o)) d := by
  refine hK.leave fun start s m hat => ?_
  obtain ⟨values, hruns, hvalues, -⟩ := hat.operands
  rw [hs] at hvalues
  cases hvalues with
  | cons ho hrest =>
    obtain ⟨hpop, hruns'⟩ := hruns.ticked.pop start
    refine ⟨_, _, Machine.den_signal hcx (Machine.bind_of_eq_ok hpop), den_ret ho, ?_⟩
    exact .ret (hsit.site ▸ hbody) (hsit.left hat.keeps hruns' hrest hheld)

theorem follows_finish (hbody : p.site.body = .block) :
    Follows u t k c a hi before m (K.bind (thenDo cx [⟨.next true, scope⟩]) s) p'
      ({ r with stack := below }.emit (.ret o)) d := by
  refine hK.leave fun start s m hat => ?_
  obtain ⟨values, hruns, hvalues, -⟩ := hat.operands
  rw [hs] at hvalues
  cases hvalues with
  | @cons _ v _ values ho hrest =>
    have hpop := Machine.somePop_of_stack (s := s.ticked) hruns.ticked.stack
      (hruns.ticked.base_le values) start
    refine ⟨_, _, Machine.den_signal hcx (Machine.bind_of_eq_ok hpop), den_ret ho, ?_⟩
    exact .finish (hsit.site ▸ hbody) (hsit.left hat.keeps (hruns.ticked.pop start).2 hrest hheld)

end

/-- **A region follows the machine over one instruction.** -/
theorem follows_plain {taken left : Nat} {r₁ : Region} {d₁ : Draft} (hag : Agreed u t cx k c)
    (hsit : Situated u c a before p r held) (ha : (placement t).admits p i = true)
    (he : i.op.effect? = some (taken, left)) (hh : taken ≤ p.height)
    (hstep : ∀ run after, CUnit.step t run i after r d = .ok ((r₁, after), d₁))
    (hu : d₁.Within u) (hhi : d₁.nextTemp ≤ hi)
    (hK : Follows u t k c a hi before m (K s) p r d) :
    Follows u t k c a hi before m (K.bind (thenDo cx [i]) s)
      (p.atHeight (p.height - taken + left)) r₁ d₁ := by
  obtain ⟨htakes, hbelongs, hfloor, hfits⟩ := admits_placement_iff.mp ha
  rw [Op.needs_of_effect he] at hfloor
  have hheld : held <:+ r.stack.drop taken := hsit.aligned.below hfloor
  have hcx := hag.unlimited
  rw [← hsit.aligned.length] at hh
  obtain ⟨op, scope⟩ := i
  have hscope : op.belongs t c.home scope = true := hsit.home ▸ hbelongs
  have hliteral : ∀ {v : Value} {atom : Atom}, atom? u c.context atom = some v →
      (∀ run after, CUnit.step t run ⟨op, scope⟩ after r d =
        .ok ((r.push (.literal atom), after), d)) →
      Performs cx ⟨op, scope⟩ (fun _ => Machine.push v) →
      Follows u t k c a hi before m (K.bind (thenDo cx [⟨op, scope⟩]) s)
        (p.atHeight (p.height - taken + left)) r₁ d₁ := by
    intro v atom hatom hthis hp
    obtain ⟨rfl, rfl⟩ := eq_of_step hstep hthis
    exact follows_literal hag hK rfl (Nat.le_refl _) hatom hp fun _ _ _ _ _ => rfl
  -- in every case `eq_of_step` says what the generator has made of the instruction
  cases op with
  | ifTrue | orElse | whileTrue | loopBody | defineMethod | defineBlock | endBlock => cases he
  | pushInt | pushNil | pushTrue | pushFalse =>
    exact hliteral rfl (fun _ _ => rfl) fun _ _ _ => rfl
  | pushString text =>
    obtain ⟨rfl, rfl⟩ : r₁ = r.push (.literal (.str (d.stringRef text))) ∧ d₁ = d.addString text :=
      eq_of_step hstep fun _ _ => rfl
    have hp : Performs cx ⟨.pushString text, scope⟩ (fun _ => Machine.push (.str text)) :=
      fun _ _ _ => rfl
    exact follows_literal hag hK rfl (Nat.le_refl _)
      (congrArg (Option.map Value.str) (hu.stringRef text)) hp fun _ _ _ _ _ => rfl
  | pushSymbol name =>
    obtain ⟨rfl, rfl⟩ : r₁ = r.push (.literal (.sym (d.symbolRef name))) ∧ d₁ = d.addSymbol name :=
      eq_of_step hstep fun _ _ => rfl
    have hp : Performs cx ⟨.pushSymbol name, scope⟩ (fun _ => Machine.push (.sym name)) :=
      fun _ _ _ => rfl
    exact follows_literal hag hK rfl (Nat.le_refl _)
      (congrArg (Option.map Value.sym) (hu.symbolRef name)) hp fun _ _ _ _ _ => rfl
  | pushSelf =>
    obtain ⟨rfl, rfl⟩ : r₁ = r.push (.literal .self) ∧ d₁ = d := eq_of_step hstep fun _ _ => rfl
    have hp : Performs cx ⟨.pushSelf, scope⟩
        (fun index => do Machine.push (← Machine.frame index).self) := fun _ _ _ => rfl
    exact follows_literal hag hK rfl (Nat.le_refl _) rfl hp fun index _ _ _ hruns =>
      Machine.bind_of_eq_ok (Machine.frame_of_frames hruns.frames index)
  | pushArg n =>
    obtain ⟨rfl, rfl⟩ : r₁ = r.push (.literal (.arg n)) ∧ d₁ = d := eq_of_step hstep fun _ _ => rfl
    have hp : Performs cx ⟨.pushArg n, scope⟩ (fun index => do
        Machine.push ((← Machine.frame index).args[n.toNat]?.getD .nil)) := fun _ _ _ => rfl
    exact follows_literal hag hK rfl (Nat.le_refl _) rfl hp fun index _ _ _ hruns =>
      Machine.bind_of_eq_ok (Machine.frame_of_frames hruns.frames index)
  | pop =>
    cases he
    obtain ⟨o, below, hs⟩ := CUnit.exists_top hh
    obtain ⟨r', hr, -⟩ := Region.exists_discard hs
    obtain ⟨rfl, rfl⟩ := eq_of_step hstep fun _ _ => CUnit.step_pop hr
    exact hK.pop hcx scope rfl hs hr
  | dup =>
    cases he
    obtain ⟨o, below, hs⟩ := CUnit.exists_top hh
    obtain ⟨rfl, rfl⟩ := eq_of_step hstep fun _ _ => CUnit.step_dup hs
    exact follows_dup hag hK rfl hs
  | getLocal name =>
    obtain ⟨found, hfound⟩ := CUnit.exists_resolved hfits
    obtain ⟨rfl, rfl⟩ := eq_of_step hstep fun _ _ => CUnit.step_getLocal hfound
    exact follows_getLocal hag hK rfl hfound (of_decide_eq_true hscope) hhi
  | setLocal name localOnly =>
    cases he
    obtain ⟨found, hfound⟩ := CUnit.exists_resolved hfits
    obtain ⟨o, below, hs⟩ := CUnit.exists_top hh
    obtain ⟨rfl, rfl⟩ := eq_of_step hstep fun _ _ => CUnit.step_setLocal hs hfound
    exact follows_setLocal hag hK rfl hfound (of_decide_eq_true hscope) hs
  | getGlobal name =>
    obtain ⟨rfl, rfl⟩ : r₁ = r.memoize d.nextTemp (.load (.global (d.symbolRef name))) ∧
        d₁ = (d.addSymbol name).addTemps 1 := eq_of_step hstep fun _ _ => rfl
    exact follows_getGlobal hag hK rfl ((Draft.grows_addTemps _ 1).within hu) hhi
  | setGlobal name =>
    cases he
    obtain ⟨o, below, hs⟩ := CUnit.exists_top hh
    obtain ⟨rfl, rfl⟩ := eq_of_step hstep fun _ _ => CUnit.step_setGlobal hs name
    exact follows_setGlobal hag hK rfl hu hs
  | checkArgs expected =>
    obtain ⟨rfl, rfl⟩ : r₁ = r.emit (.checkArgs expected) ∧ d₁ = d := eq_of_step hstep fun _ _ => rfl
    exact follows_checkArgs hag hK rfl expected
  | send message argc receiver withBlock =>
    rw [Op.effect?_send (of_decide_eq_true hfits)] at he
    cases he
    obtain ⟨block, target, args, below, rfl, rfl, hargc, hs⟩ :=
      CUnit.exists_operands receiver withBlock hh
    obtain ⟨rfl, rfl⟩ := eq_of_step hstep fun _ _ => CUnit.step_send hargc hs message
    exact follows_send hag hK rfl hargc hs htakes ((Draft.grows_addTemps _ 1).within hu) hhi
  | yield argc =>
    cases he
    obtain ⟨args, below, hargc, hs⟩ := CUnit.exists_args hh
    obtain ⟨rfl, rfl⟩ := eq_of_step hstep fun _ _ => CUnit.step_yield hargc hs
    exact follows_yield hag hK rfl hargc hs hhi
  | ret =>
    cases he
    obtain ⟨o, below, hs⟩ := CUnit.exists_top hh
    obtain ⟨rfl, rfl⟩ := eq_of_step hstep fun _ _ => CUnit.step_ret hs
    rw [hs] at hheld
    exact follows_ret hcx hsit hK hs hheld (of_decide_eq_true hfits)
  | breakOut =>
    obtain ⟨rfl, rfl⟩ : r₁ = r.emit .breakLoop ∧ d₁ = d := eq_of_step hstep fun _ _ => rfl
    exact follows_breakOut hcx hsit hK hfits
  | next withValue =>
    cases withValue with
    | false =>
      obtain ⟨rfl, rfl⟩ : r₁ = r.emit .continueLoop ∧ d₁ = d := eq_of_step hstep fun _ _ => rfl
      exact follows_again hcx hsit hK hfits
    | true =>
      cases he
      obtain ⟨o, below, hs⟩ := CUnit.exists_top hh
      obtain ⟨rfl, rfl⟩ := eq_of_step hstep fun _ _ => CUnit.step_finish hs
      rw [hs] at hheld
      have hfits : (p.site.loop.isNone && decide (p.site.body = .block)) = true := hfits
      exact follows_finish hcx hsit hK hs hheld
        (of_decide_eq_true (Bool.and_eq_true_iff.mp hfits).2)
  | halt =>
    obtain ⟨rfl, rfl⟩ : r₁ = r.emit .exit ∧ d₁ = d := eq_of_step hstep fun _ _ => rfl
    exact follows_halt hcx hK scope
  | setVisibility visibility =>
    obtain ⟨rfl, rfl⟩ : r₁ = r.emit (.setVisibility visibility) ∧ d₁ = d :=
      eq_of_step hstep fun _ _ => rfl
    exact follows_setVisibility hag hK rfl visibility

end StackCode.Native
