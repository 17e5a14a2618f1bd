import Mathlib.Data.List.Forall2
import StackCode.Proofs.StatementMeaning
import StackCode.Proofs.UnitStates

/-!
# Regions that do what code does

A region is executed from its start, and the code that it was made of is run from a state that
stands for the same (`Runs`). `At` relates the two after a part of the code: every operand of the
region has the value of the machine's operand. `Ends` relates all that may come of the code, also
a signal that leaves it, a halt and an exception.

The last statement of a region may change when an operand is forgotten. Hence the region is always
taken as a whole: code that follows makes of a region that has done what the code before it did one
that has done what all the code does (`Follows.extend`).
-/

namespace StackCode.Native

open CUnit (Operand Stmt Region Draft)
open Machine (State Stop Ended Setup thenDo)

variable {u : CUnit} {t : ScopeTree} {cx : Setup} {k : Nat} {c : Call} {s s' : State}
  {m m' : Memory} {v : Value} {o : Operand}

/-! ## Temps -/

namespace Temps

/-- The temps that can be seen have the same values in `temps'`, where there may be more. -/
def Keeps (temps temps' : Temps) : Prop := ∀ n v, temps n = some v → temps' n = some v

variable {temps temps' temps'' : Temps}

theorem Keeps.refl (temps : Temps) : temps.Keeps temps := fun _ _ h => h

theorem Keeps.trans (h : temps.Keeps temps') (h' : temps'.Keeps temps'') : temps.Keeps temps'' :=
  fun n v hn => h' n v (h n v hn)

/-- Declaring a new temp keeps the others. -/
theorem keeps_set {n : Nat} (h : temps n = none) (v : Value) : temps.Keeps (temps.set n v) := by
  intro j w hj
  have hne : j ≠ n := fun he => by rw [he, h] at hj; cases hj
  rw [set, if_neg hne]
  exact hj

/-- At the end of braces those temps are left that could be seen before them. -/
theorem leaving_of_keeps (h : temps.Keeps temps') : temps'.leaving temps = temps := by
  funext n
  unfold leaving
  cases hn : temps n with
  | none => rfl
  | some v => exact h n v hn

theorem Keeps.leaving (h : temps.Keeps temps') (h' : temps.Keeps temps'') :
    temps.Keeps (temps'.leaving temps'') := by
  intro n v hn
  rw [Temps.leaving, h' n v hn]
  exact h n v hn

end Temps

/-! ## Operands -/

/-- The operands have these values. -/
def Values (u : CUnit) (c : Call) (temps : Temps) (os : List Operand) (vs : List Value) : Prop :=
  List.Forall₂ (fun o v => operand? u c.context temps o = some v) os vs

section

variable {temps temps' : Temps} {os os' : List Operand} {vs vs' : List Value}

/-- An operand has its value as long as its temp is kept. -/
theorem operand?_of_keeps {cx : Context} (h : temps.Keeps temps')
    (ho : operand? u cx temps o = some v) : operand? u cx temps' o = some v := by
  cases o with
  | literal a => exact ho
  | temp n => exact h n v ho

theorem Values.keeps (h : Values u c temps os vs) (hk : temps.Keeps temps') :
    Values u c temps' os vs :=
  List.Forall₂.imp (fun _ _ ho => operand?_of_keeps hk ho) h

/-- Operands have one value each. -/
theorem Values.unique (h : Values u c temps os vs) (h' : Values u c temps os vs') : vs = vs' :=
  List.right_unique_forall₂' (fun _ _ _ ha hb => Option.some.inj (ha.symm.trans hb)) h h'

theorem Values.append (h : Values u c temps os vs) (h' : Values u c temps os' vs') :
    Values u c temps (os ++ os') (vs ++ vs') :=
  List.rel_append h h'

theorem Values.reverse (h : Values u c temps os vs) : Values u c temps os.reverse vs.reverse :=
  List.rel_reverse h

theorem Values.of_reverse (h : Values u c temps os.reverse vs) :
    Values u c temps os vs.reverse := by
  have hrev := h.reverse
  rwa [List.reverse_reverse] at hrev

theorem Values.exists_append (h : Values u c temps (os ++ os') vs) :
    ∃ vs₁ vs₂, vs = vs₁ ++ vs₂ ∧ Values u c temps os vs₁ ∧ Values u c temps os' vs₂ := by
  induction os generalizing vs with
  | nil => exact ⟨[], vs, rfl, .nil, h⟩
  | cons o os ih =>
    cases h with
    | @cons _ v _ vs ho hrest =>
      obtain ⟨vs₁, vs₂, rfl, h₁, h₂⟩ := ih hrest
      exact ⟨v :: vs₁, vs₂, rfl, .cons ho h₁, h₂⟩

theorem Values.mapM (h : Values u c temps os vs) :
    os.mapM (operand? u c.context temps) = some vs := by
  induction h with
  | nil => rfl
  | cons ho _ ih => simp [List.mapM_cons, ho, ih]

/-- A temp that no operand is has no part in their values. -/
theorem values_set_iff {n : Nat} {w : Value} (hn : Operand.temp n ∉ os) :
    Values u c (temps.set n w) os vs ↔ Values u c temps os vs := by
  unfold Values
  induction os generalizing vs with
  | nil => rw [List.forall₂_nil_left_iff, List.forall₂_nil_left_iff]
  | cons o os ih =>
    rw [List.mem_cons, not_or] at hn
    have ho : operand? u c.context (temps.set n w) o = operand? u c.context temps o := by
      cases o with
      | literal a => rfl
      | temp j => exact if_neg fun he : j = n => hn.1 (he ▸ rfl)
    simp only [List.forall₂_cons_left_iff, ho, ih hn.2]

/-- The value of an operand that may be missing. -/
theorem Values.exists_option {o : Option Operand} (h : Values u c temps o.toList vs) :
    ∃ v : Option Value, vs = v.toList ∧ v.isSome = o.isSome := by
  cases o with
  | none =>
    cases h
    exact ⟨none, rfl, rfl⟩
  | some o =>
    cases h with
    | @cons _ v _ _ _ hrest =>
      cases hrest
      exact ⟨some v, rfl, rfl⟩

end

/-! ## Outcomes -/

/-- Both sides have stopped for the same reason. -/
inductive SameError : Stop → Interrupt → Prop
  | raised {e : Exception} {trace : List Activation} :
      SameError (.fault (.raised ⟨e, trace⟩)) (.raised e)
  | outputFull : SameError (.fault .outputFull) .outputFull

/-- What stands around code: where it stands, the operands from before the innermost loop, and the
temps that could be seen when the round of that loop began. -/
structure Around where
  site : Site
  held : List Value
  temps : Temps

/-- The state in which a signal leaves code. -/
def Left (u : CUnit) (t : ScopeTree) (c : Call) (a : Around) (s : State) (m : Memory) : Prop :=
  (∃ more, Runs u t c (more ++ a.held) s m) ∧ a.temps.Keeps m.temps

/-- Code and statements have ended before their end, in the same way: with the same signal, with a
halt, or with the same failure. -/
inductive Leaves (u : CUnit) (t : ScopeTree) (c : Call) (a : Around) :
    EStateM.Result Stop State Ended → EStateM.Result Interrupt Memory Flow → Prop
  | breakLoop {s : State} {m : Memory} {stop : Nat} (hin : a.site.loop.isSome)
      (h : Left u t c a s m) : Leaves u t c a (.ok (some .breakOut, stop) s) (.ok .breakLoop m)
  | continueLoop {s : State} {m : Memory} {stop : Nat} (hin : a.site.loop.isSome)
      (h : Left u t c a s m) :
      Leaves u t c a (.ok (some (.next none), stop) s) (.ok .continueLoop m)
  | ret {s : State} {m : Memory} {stop : Nat} {v : Value} (hb : a.site.body ≠ .block)
      (h : Left u t c a s m) : Leaves u t c a (.ok (some (.ret v), stop) s) (.ok (.ret v) m)
  | finish {s : State} {m : Memory} {stop : Nat} {v : Value} (hb : a.site.body = .block)
      (h : Left u t c a s m) :
      Leaves u t c a (.ok (some (.next (some v)), stop) s) (.ok (.ret v) m)
  | halt {s : State} {m : Memory} {stop : Nat} (h : m.output = s.output) :
      Leaves u t c a (.ok (some .halt, stop) s) (.error .exited m)
  | error {s : State} {m : Memory} {e : Stop} {e' : Interrupt} (he : SameError e e')
      (h : m.output = s.output) : Leaves u t c a (.error e s) (.error e' m)

/-- Code and statements have come to their end, in states that satisfy `N`, or ended before it. -/
inductive Ends (u : CUnit) (t : ScopeTree) (c : Call) (a : Around) (N : State → Memory → Prop) :
    EStateM.Result Stop State Ended → EStateM.Result Interrupt Memory Flow → Prop
  | next {s : State} {m : Memory} {stop : Nat} (h : N s m) :
      Ends u t c a N (.ok (none, stop) s) (.ok .next m)
  | leaves {x : EStateM.Result Stop State Ended} {y : EStateM.Result Interrupt Memory Flow}
      (h : Leaves u t c a x y) : Ends u t c a N x y

variable {a a' : Around} {N N' : State → Memory → Prop} {K : Partial Stop State Ended}
  {code : List Instruction} {stmts stmts' : List Stmt}

/-- **Code after code, and statements after statements.** -/
theorem rel_append (h : Option.Rel (Ends u t c a N) (K s) (den u k c.context stmts m))
    (hnext : ∀ start s m, N s m → Option.Rel (Ends u t c a N')
      (Machine.den cx ⟨start, code⟩ s) (den u k c.context stmts' m)) :
    Option.Rel (Ends u t c a N') (K.bind (thenDo cx code) s)
      (den u k c.context (stmts ++ stmts') m) := by
  rw [den_append]
  unfold Partial.bind
  revert h
  generalize K s = x
  generalize den u k c.context stmts m = y
  rintro (h | _)
  · cases h with
    | next h => exact hnext _ _ _ h
    | leaves h =>
      have hleaves := h
      cases h <;> exact .some (.leaves hleaves)
  · exact .none

/-- Statements that follow where the code has come to its end already. -/
theorem rel_append_right {x : Option (EStateM.Result Stop State Ended)}
    (h : Option.Rel (Ends u t c a N) x (den u k c.context stmts m))
    (hnext : ∀ s m, N s m → ∃ m', den u k c.context stmts' m = some (.ok .next m') ∧ N' s m') :
    Option.Rel (Ends u t c a N') x (den u k c.context (stmts ++ stmts') m) := by
  rw [den_append]
  unfold Partial.bind
  revert h
  generalize den u k c.context stmts m = y
  rintro (h | _)
  · cases h with
    | next h =>
      obtain ⟨m', heq, h'⟩ := hnext _ _ h
      show Option.Rel _ _ (den u k c.context stmts' _)
      rw [heq]
      exact .some (.next h')
    | leaves h =>
      have hleaves := h
      cases h <;> exact .some (.leaves hleaves)
  · exact .none

/-- Braces that are left keep the temps from before them. -/
theorem Left.leaving {outer : Temps} (h : Left u t c a s m) (hk : a.temps.Keeps outer) :
    Left u t c a s { m with temps := m.temps.leaving outer } := by
  obtain ⟨⟨more, hruns⟩, hkeeps⟩ := h
  exact ⟨⟨more, hruns.withTemps _⟩, hkeeps.leaving hk⟩

/-- The end of braces in which the code has been executed. -/
theorem rel_closeBraces {x : Option (EStateM.Result Stop State Ended)}
    {y : Option (EStateM.Result Interrupt Memory Flow)} {outer : Temps}
    (h : Option.Rel (Ends u t c a N) x y) (hk : a.temps.Keeps outer)
    (hnext : ∀ s m, N s m → N' s { m with temps := m.temps.leaving outer }) :
    Option.Rel (Ends u t c a N') x (y.map (closeBraces outer)) := by
  rcases h with h | _
  · refine .some ?_
    cases h with
    | next h => exact .next (hnext _ _ h)
    | leaves h =>
      cases h with
      | breakLoop hin h => exact .leaves (.breakLoop hin (h.leaving hk))
      | continueLoop hin h => exact .leaves (.continueLoop hin (h.leaving hk))
      | ret hb h => exact .leaves (.ret hb (h.leaving hk))
      | finish hb h => exact .leaves (.finish hb (h.leaving hk))
      | halt h => exact .leaves (.halt h)
      | error he h => exact .leaves (.error he h)
  · exact .none

/-! ## Regions in the making -/

/-- At the point `p` the region `r` has been executed, and the unit has grown to `d`. Before it the
temps `before` could be seen; temps up to `hi` are for it to declare. -/
structure At (u : CUnit) (t : ScopeTree) (c : Call) (hi : Nat) (before : Temps) (p : Point)
    (r : Region) (d : Draft) (s : State) (m : Memory) : Prop where
  operands : ∃ values, Runs u t c values s m ∧ Values u c m.temps r.stack values ∧
    (p.awaiting = true → ∃ id rest, values = .proc id :: rest ∧ id < s.procs.size)
  keeps : before.Keeps m.temps
  fresh : ∀ n, d.nextTemp ≤ n → n < hi → m.temps n = none
  /-- A temp that may yet be forgotten was not there before. -/
  declared : ∀ n value rest, r.code = .declare n value :: rest → before n = none

/-- The region has done what the code did of which `x` came. -/
def Follows (u : CUnit) (t : ScopeTree) (k : Nat) (c : Call) (a : Around) (hi : Nat)
    (before : Temps) (m : Memory) (x : Option (EStateM.Result Stop State Ended)) (p : Point)
    (r : Region) (d : Draft) : Prop :=
  Option.Rel (Ends u t c a (At u t c hi before p r d)) x (den u k c.context r.statements m)

variable {hi : Nat} {before : Temps} {p p' : Point} {r r' : Region} {d d' : Draft}

/-- Code whose statements are added to a region. -/
theorem Follows.extend (hK : Follows u t k c a hi before m (K s) p r d) (stmts : List Stmt)
    (hr : r'.statements = r.statements ++ stmts)
    (h : ∀ start s m, At u t c hi before p r d s m →
      Option.Rel (Ends u t c a (At u t c hi before p' r' d'))
        (Machine.den cx ⟨start, code⟩ s) (den u k c.context stmts m)) :
    Follows u t k c a hi before m (K.bind (thenDo cx code) s) p' r' d' := by
  unfold Follows
  rw [hr]
  exact rel_append hK h

/-- A region at its start. -/
theorem at_start {values : List Value} {stack : List Operand} (hruns : Runs u t c values s m)
    (hvalues : Values u c m.temps stack values) (hp : p.awaiting = false)
    (hfresh : ∀ n, d.nextTemp ≤ n → n < hi → m.temps n = none) :
    At u t c hi m.temps p { stack } d s m where
  operands := ⟨values, hruns, hvalues, fun h => by rw [hp] at h; cases h⟩
  keeps := .refl _
  fresh := hfresh
  declared := fun _ _ _ h => nomatch h

theorem follows_start (start : Nat) (h : At u t c hi before p { stack := r.stack } d s m) :
    Follows u t k c a hi before m (some (.ok (none, start) s)) p { stack := r.stack } d := by
  unfold Follows
  show Option.Rel _ _ (den u k c.context [] m)
  rw [den_nil]
  exact .some (.next h)

end StackCode.Native
