import StackCode.Proofs.UnitMeaning

/-!
# What statements come to

`den u k cx stmts` is the limit of the executions of statements: what they come to with fuel enough,
and nothing when they go on for ever. Calls may be nested `k` deep inside of them. It obeys the
equations that one expects of statements: they are executed one after the other (`den_append`), a
conditional executes one of its arms (`den_ifElse`), a loop is its rounds (`den_loop`), and a call
executes the body of its function (`lim_enter`).
-/

namespace StackCode.Native

open CUnit (Operand Rhs Stmt Function)

variable {u : CUnit} {k : Nat} {cx : Context} {m m' : Memory} {v : Value} {o : Operand}

/-! ## Statements in sequence -/

/-- What statements come to. -/
noncomputable def den (u : CUnit) (k : Nat) (cx : Context) (stmts : List Stmt) :
    Partial Interrupt Memory Flow :=
  lim fun n => execAll u n (invoke u n k) cx stmts

/-- What follows statements that have ended like this: the next ones, or nothing. -/
noncomputable def goOn (u : CUnit) (k : Nat) (cx : Context) (stmts : List Stmt) :
    Flow → Partial Interrupt Memory Flow
  | .next => den u k cx stmts
  | other => fun m => some (.ok other m)

theorem den_nil (m : Memory) : den u k cx [] m = some (.ok .next m) :=
  lim_eq_some (n := 0) (steady_execAll u k cx []) (by simp only [execAll]; rfl) (not_ranOut_ok _ m)

/-- Statements behind others are executed if the others come to their end. -/
theorem execAll_append (n : Nat) (call : Invocation → Compute Value) (a b : List Stmt) :
    execAll u n call cx (a ++ b) = do
      match ← execAll u n call cx a with
      | .next => execAll u n call cx b
      | other => return other := by
  induction a with
  | nil =>
    simp only [List.nil_append, execAll]
    rfl
  | cons s rest ih =>
    simp only [List.cons_append, execAll, ih, bind_assoc]
    congr 1
    funext flow
    cases flow <;> rfl

/-- **Statements are executed one after the other**, until one does not go on to the next. -/
theorem den_append (a b : List Stmt) :
    den u k cx (a ++ b) = (den u k cx a).bind (goOn u k cx b) := by
  let follow (flow : Flow) (n : Nat) : Compute Flow :=
    match flow with
    | .next => execAll u n (invoke u n k) cx b
    | other => return other
  have hsteady : ∀ flow, Steady (follow flow) := by
    intro flow
    cases flow with
    | next => exact steady_execAll u k cx b
    | _ => exact steady_const _
  have hlim : (fun flow => lim (follow flow)) = goOn u k cx b := by
    funext flow m
    cases flow with
    | next => rfl
    | _ => exact lim_const rfl (not_ranOut_ok _ m)
  have hbind := lim_bind (steady_execAll u k cx a) hsteady
  rw [← hlim]
  refine Eq.trans ?_ hbind
  unfold den
  congr 1
  funext n
  rw [execAll_append]

/-- One statement, without what follows it. -/
theorem den_singleton (s : Stmt) : den u k cx [s] = lim fun n => exec u n (invoke u n k) cx s := by
  unfold den
  congr 1
  funext n
  simp only [execAll]
  refine Eq.trans ?_ (bind_pure _)
  congr 1
  funext flow
  cases flow <;> rfl

theorem bind_eq_of_ok {α β : Type} {x : Compute α} {f : α → Compute β} {a : α}
    (h : x m = .ok a m') : (x >>= f) m = f a m' := by
  show EStateM.bind x f m = _
  unfold EStateM.bind
  rw [h]

theorem bind_eq_of_error {α β : Type} {x : Compute α} {f : α → Compute β} {e : Interrupt}
    (h : x m = .error e m') : (x >>= f) m = .error e m' := by
  show EStateM.bind x f m = _
  unfold EStateM.bind
  rw [h]

/-- A statement that does something without a call. -/
theorem den_act {s : Stmt} {act : Compute Unit}
    (hs : ∀ n, exec u n (invoke u n k) cx s = andNext act) (hact : act m = .ok () m') :
    den u k cx [s] m = some (.ok .next m') := by
  rw [den_singleton]
  exact lim_eq_some (n := 0) (steady_exec u k cx s) (by rw [hs]; exact bind_eq_of_ok hact)
    (not_ranOut_ok _ m')

/-- A statement that raises an exception. -/
theorem den_act_raise {s : Stmt} {act : Compute Unit} {e : Exception}
    (hs : ∀ n, exec u n (invoke u n k) cx s = andNext act) (hact : act m = .error (.raised e) m') :
    den u k cx [s] m = some (.error (.raised e) m') := by
  rw [den_singleton]
  exact lim_eq_some (n := 0) (steady_exec u k cx s) (by rw [hs]; exact bind_eq_of_error hact)
    (mt ranOut_error_iff.mp (by nofun))

/-! ## Operands and values -/

theorem operand_eq (h : operand? u cx m.temps o = some v) : operand u cx o m = .ok v m := by
  show defined (operand? u cx m.temps o) m = _
  rw [h]
  rfl

theorem operands_eq {os : List Operand} {vs : List Value}
    (h : os.mapM (operand? u cx m.temps) = some vs) : operands u cx os m = .ok vs m := by
  show defined (os.mapM (operand? u cx m.temps)) m = _
  rw [h]
  rfl

/-- What the computation of a value comes to. -/
noncomputable def computeDen (u : CUnit) (k : Nat) (cx : Context) (value : Rhs) :
    Partial Interrupt Memory Value :=
  lim fun n => compute u (invoke u n k) cx value

theorem steady_compute (u : CUnit) (k : Nat) (cx : Context) (value : Rhs) :
    Steady fun n => compute u (invoke u n k) cx value :=
  fun n => improves_compute (fun i => steady_invoke u k i n) value

/-- A temp that is not visible yet may be declared. -/
theorem declare_eq {n : Nat} (h : m.temps n = none) (v : Value) :
    declare n v m = .ok () { m with temps := m.temps.set n v } := by
  show (if (m.temps n).isSome then _ else _ : Compute Unit) m = _
  rw [h]
  rfl

/-- A temp that is visible may not be declared again. -/
theorem declare_eq_error {n : Nat} {old : Value} (h : m.temps n = some old) (v : Value) :
    declare n v m = .error .undefined m := by
  show (if (m.temps n).isSome then _ else _ : Compute Unit) m = _
  rw [h]
  rfl

theorem not_ranOut_declare (n : Nat) (v : Value) (m : Memory) :
    ¬ RanOut (andNext (declare n v) m) := by
  cases h : m.temps n with
  | none =>
    rw [andNext, bind_eq_of_ok (declare_eq h v)]
    exact not_ranOut_ok _ _
  | some old =>
    rw [andNext, bind_eq_of_error (declare_eq_error h v)]
    exact mt ranOut_error_iff.mp (by nofun)

/-- A declaration computes its value and then declares the temp. -/
theorem den_declare (n : Nat) (value : Rhs) : den u k cx [.declare n value] =
    (computeDen u k cx value).bind fun v m => some (andNext (declare n v) m) := by
  have hlim : (fun v : Value => lim fun _ => andNext (declare n v)) =
      fun v m => some (andNext (declare n v) m) :=
    funext fun v => funext fun m => lim_const rfl (not_ranOut_declare n v m)
  rw [den_singleton, computeDen, ← hlim,
    ← lim_bind (steady_compute u k cx value) fun _ => steady_const _]
  congr 1
  funext i
  simp only [exec, andNext, bind_assoc]

/-- Behind its declaration a temp has the value that was computed. -/
theorem den_declare_of_value {n : Nat} {value : Rhs}
    (h : computeDen u k cx value m = some (.ok v m')) (hn : m'.temps n = none) :
    den u k cx [.declare n value] m =
      some (.ok .next { m' with temps := m'.temps.set n v }) := by
  rw [den_declare, Partial.bind_of_eq_ok h]
  exact congrArg some (bind_eq_of_ok (declare_eq hn v))

/-- A value that is computed for its effect is dropped. -/
theorem den_eval (value : Rhs) : den u k cx [.eval value] =
    (computeDen u k cx value).bind fun _ m => some (.ok .next m) := by
  have hlim : (fun _ : Value => lim fun _ => (pure .next : Compute Flow)) =
      fun _ m => some (.ok .next m) :=
    funext fun _ => funext fun m => lim_const rfl (not_ranOut_ok _ m)
  rw [den_singleton, computeDen, ← hlim,
    ← lim_bind (steady_compute u k cx value) fun _ => steady_const _]
  congr 1
  funext i
  simp only [exec, andNext, bind_assoc, pure_bind]

/-- A temp that is visible may be assigned. -/
theorem assign_eq {n : Nat} {old : Value} (h : m.temps n = some old) (v : Value) :
    assign n v m = .ok () { m with temps := m.temps.set n v } := by
  show (if (m.temps n).isNone then _ else _ : Compute Unit) m = _
  rw [h]
  rfl

theorem den_ret (h : operand? u cx m.temps o = some v) :
    den u k cx [.ret o] m = some (.ok (.ret v) m) := by
  rw [den_singleton]
  refine lim_eq_some (n := 0) (steady_exec u k cx _) ?_ (not_ranOut_ok _ m)
  simp only [exec]
  exact bind_eq_of_ok (operand_eq h)

/-- A store changes one variable. -/
theorem den_store {place : CUnit.Storage} (ho : operand? u cx m.temps o = some v)
    (hstore : m.store? cx.env v place = some m') :
    den u k cx [.store place o] m = some (.ok .next m') := by
  refine den_act (fun n => by simp only [exec]; rfl) (Eq.trans (bind_eq_of_ok (operand_eq ho)) ?_)
  show (defined (m.store? cx.env v place) >>= set) m = _
  rw [hstore]
  rfl

theorem den_setVisibility (visibility : Visibility) (m : Memory) :
    den u k cx [.setVisibility visibility] m = some (.ok .next { m with visibility }) := by
  have hs : ∀ n, exec u n (invoke u n k) cx (.setVisibility visibility) =
      andNext (modify fun m => { m with visibility }) := fun n => by simp only [exec]
  exact den_act hs rfl

/-- A wrong number of arguments raises. -/
theorem den_checkArgs (expected : UInt64) (m : Memory) : den u k cx [.checkArgs expected] m =
    some (if cx.args.length ≠ expected.toNat
      then .error (.raised (.wrongArity cx.args.length expected.toNat)) m else .ok .next m) := by
  have hs : ∀ n, exec u n (invoke u n k) cx (.checkArgs expected) = andNext
      (if cx.args.length ≠ expected.toNat
        then raise (.wrongArity cx.args.length expected.toNat) else pure ()) :=
    fun n => by simp only [exec]
  split
  · rename_i hcount
    exact den_act_raise hs (by rw [if_pos hcount]; rfl)
  · rename_i hcount
    exact den_act hs (by rw [if_neg hcount]; rfl)

/-- A definition enters the function in the table of methods. -/
theorem den_defineMethod {name : CUnit.Ref} {old : Option Entry}
    (h : m.methods[name.index]? = some old) (function : CUnit.FunctionName) :
    den u k cx [.defineMethod name function] m = some (.ok .next
      { m with methods := (m.methods.setIfInBounds name.index
          (some { function, selfOnly := m.visibility = .selfOnly })) }) := by
  refine den_act (fun n => by simp only [exec]; rfl) ?_
  show (defined m.methods[name.index]? >>= _) m = _
  rw [h]
  rfl

theorem den_breakLoop (m : Memory) : den u k cx [.breakLoop] m = some (.ok .breakLoop m) := by
  rw [den_singleton]
  exact lim_eq_some (n := 0) (steady_exec u k cx _) (by simp only [exec]; rfl) (not_ranOut_ok _ m)

theorem den_continueLoop (m : Memory) :
    den u k cx [.continueLoop] m = some (.ok .continueLoop m) := by
  rw [den_singleton]
  exact lim_eq_some (n := 0) (steady_exec u k cx _) (by simp only [exec]; rfl) (not_ranOut_ok _ m)

theorem den_exit (m : Memory) : den u k cx [.exit] m = some (.error .exited m) := by
  rw [den_singleton]
  exact lim_eq_some (n := 0) (steady_exec u k cx _) (by simp only [exec]; rfl)
    (mt ranOut_error_iff.mp (by nofun))

/-! ## Braces -/

/-- Behind braces only the temps from before them are left. -/
theorem lim_braces {α : Type} {f : Nat → Compute α} (hf : Steady f) (m : Memory) :
    lim (fun n => braces (f n)) m = (lim f m).map (closeBraces m.temps) := by
  rw [← lim_mapResult hf fun _ => ranOut_closeBraces_iff]
  exact lim_eq_of_eq fun n => rfl

/-- A conditional executes one of its arms, in braces. -/
theorem den_ifElse (h : operand? u cx m.temps o = some v) (yes no : List Stmt) :
    den u k cx [.ifElse o yes no] m =
      (den u k cx (if v.isTruthy then yes else no) m).map (closeBraces m.temps) := by
  rw [den_singleton, den, ← lim_braces (steady_execAll u k cx _)]
  refine lim_eq_of_eq fun n => ?_
  simp only [exec]
  rw [bind_eq_of_ok (operand_eq h)]
  split <;> rfl

/-- What follows the test of a round. -/
noncomputable def afterTest (u : CUnit) (k : Nat) (cx : Context) (o : Operand) (body : List Stmt) :
    Flow → Partial Interrupt Memory (Option Flow)
  | .next => lim fun n => do
      if (← operand u cx o).isTruthy then
        return endRound (← execAll u n (invoke u n k) cx body)
      else return some .next
  | other => fun m => some (.ok (endRound other) m)

theorem steady_round (test body : List Stmt) (o : Operand) :
    Steady fun n => round (execAll u n (invoke u n k) cx test) (operand u cx o)
      (execAll u n (invoke u n k) cx body) :=
  fun n => improves_round (steady_execAll u k cx test n) _ (steady_execAll u k cx body n)

/-- A loop is its rounds. -/
theorem den_loop (test body : List Stmt) (o : Operand) : den u k cx [.loop test o body] =
    lim fun n => rounds (round (execAll u n (invoke u n k) cx test) (operand u cx o)
      (execAll u n (invoke u n k) cx body)) n := by
  rw [den_singleton]
  simp only [exec]

/-- A round is its test, its condition and its body, inside braces. -/
theorem lim_round (test body : List Stmt) (o : Operand) (m : Memory) :
    lim (fun n => round (execAll u n (invoke u n k) cx test) (operand u cx o)
      (execAll u n (invoke u n k) cx body)) m =
      ((den u k cx test).bind (afterTest u k cx o body) m).map (closeBraces m.temps) := by
  let rest (flow : Flow) (n : Nat) : Compute (Option Flow) :=
    match flow with
    | .next => do
      if (← operand u cx o).isTruthy then
        return endRound (← execAll u n (invoke u n k) cx body)
      else return some .next
    | other => return endRound other
  have hsteady : ∀ flow, Steady (rest flow) := by
    intro flow n
    cases flow with
    | next =>
      refine (improves_refl _).bind fun v => ?_
      split
      · exact (steady_execAll u k cx body n).bind fun _ => improves_refl _
      · exact improves_refl _
    | _ => exact improves_refl _
  have hlim : (fun flow => lim (rest flow)) = afterTest u k cx o body := by
    funext flow m
    cases flow with
    | next => rfl
    | _ => exact lim_const rfl (not_ranOut_ok _ m)
  have htest := steady_execAll u k cx test
  rw [← hlim, den, ← lim_bind htest hsteady, ← lim_braces (htest.bind hsteady)]
  rfl

/-- After a test that has gone on to its end. -/
theorem afterTest_next (h : operand? u cx m.temps o = some v) (body : List Stmt) :
    afterTest u k cx o body .next m =
      if v.isTruthy then (den u k cx body).bind (fun flow m => some (.ok (endRound flow) m)) m
      else some (.ok (some .next) m) := by
  have heq : ∀ n, (do
      if (← operand u cx o).isTruthy then
        return endRound (← execAll u n (invoke u n k) cx body)
      else return some .next : Compute (Option Flow)) m =
        (if v.isTruthy then do return endRound (← execAll u n (invoke u n k) cx body)
          else return some .next : Compute (Option Flow)) m :=
    fun n => bind_eq_of_ok (operand_eq h)
  refine (lim_eq_of_eq heq).trans ?_
  split
  · have hlim : (fun flow : Flow => lim fun _ => (pure (endRound flow) : Compute (Option Flow))) =
        fun flow m => some (.ok (endRound flow) m) :=
      funext fun flow => funext fun m => lim_const rfl (not_ranOut_ok _ m)
    rw [← hlim, den, ← lim_bind (steady_execAll u k cx body) fun _ => steady_const _]
  · exact lim_const rfl (not_ranOut_ok _ m)

/-! ## Calls -/

/-- A call executes the body of its function, with variables and temps of its own. -/
theorem lim_enter (f : Function) (i : Invocation) (m : Memory) :
    lim (fun n => enter u n (invoke u n k) f i) m =
      (den u k (i.context ⟨m.envs.size⟩) f.body (m.entered i.parent f.envSize)).map
        (returned m.temps) := by
  rw [den, ← lim_mapResult (steady_execAll u k _ f.body) fun _ => ranOut_returned_iff]
  exact lim_eq_of_eq fun n => rfl

/-- A call executes the body of its function, with variables of its own. -/
theorem lim_invoke_succ {i : Invocation} {f : Function} (h : u.function? i.function = some f)
    (m : Memory) : lim (fun n => invoke u n (k + 1) i) m =
      (den u k (i.context ⟨m.envs.size⟩) f.body (m.entered i.parent f.envSize)).map
        (returned m.temps) := by
  rw [← lim_enter]
  refine lim_eq_of_eq fun n => ?_
  rw [invoke, h]
  rfl

/-- A call that is nested too deep raises. -/
theorem lim_invoke_zero (i : Invocation) (m : Memory) :
    lim (fun n => invoke u n 0 i) m = some (.error (.raised .stackTooDeep) m) :=
  lim_const rfl (mt ranOut_error_iff.mp (by nofun))

end StackCode.Native
