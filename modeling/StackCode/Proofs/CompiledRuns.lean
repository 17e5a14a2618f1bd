import StackCode.Proofs.Soundness

/-!
# Runs of compiled programs

Compiled programs are disciplined, so their runs go well: no run ends in a fault of the code,
however long it is and whatever its limits are (`compiled_run_not_malformed`), and every access to a
variable finds in the run what the text says (`compiled_lookups_agree`).
-/

namespace StackCode.Machine

variable {T : ScopeTree} {cx : Setup} {b : Bool} {run run' : Segment → Exec Ended} {c : Calls}
  {h k : Nat} {s : State} {p q : Point} {index : Nat}

/-- The state in which the code of a program starts. -/
def entryState (room : Option Nat) (env : Env) : State :=
  { frames := [topFrame ⟨0⟩], envs := EnvStore.push {} env, output := { room } }

/-- At the start there is one call, in the root scope, and nothing is kept yet. -/
theorem running_top {scope : Scope} {room : Option Nat} (hget : T.get? .root = some scope)
    (hhoist : scope.hoist = false) (hblock : scope.block = false) :
    Running T ⟨topFrame ⟨0⟩, .root, []⟩ 0 (entryState room (freshEnv scope .root none)) := by
  have hempty : EnvStore.Mirrors T {} := fun id env h => by cases h
  have hfresh := (canEnter_method (s := {}) hhoist hblock).mirrors hget
  refine ⟨⟨hempty.push hfresh, ?_, ?_⟩, rfl, ?_, rfl⟩
  · intro name m h
    cases h
  · intro id c h
    cases h
  · intro x hx
    obtain rfl := List.mem_singleton.mp hx
    exact ⟨freshEnv scope .root none, rfl, rfl⟩

/-- Top-level code has no signal that it may not raise. -/
theorem ensures_finish {e : Ended} (he : Ends T .top q c e s) :
    Ensures (finish e) (fun _ _ => True) s := by
  obtain ⟨signal, stop⟩ := e
  cases signal with
  | none => trivial
  | some signal =>
    cases signal with
    | breakOut => cases he.1
    | halt => trivial
    | ret v => trivial
    | next v =>
      cases v with
      | none => cases he.1
      | some v => cases he.1.2

/-- **Disciplined programs run well**, and nothing shows whether a run is watched or checked. -/
theorem together_runWithin {P : Program} (hd : P.Disciplined n) {watch : Instruction → Exec Unit}
    (hquiet : Quiet P.scopes watch) (fuel : Nat) (limits : Limits) (b : Bool)
    (room : Option Nat) :
    Together (runWithin fuel limits P)
      (runBy (.watched watch) fuel { limits with checkScopes := b } P) (fun _ _ => True)
      { output := { room } } := by
  obtain ⟨scope, hget, hhoist, hblock⟩ := Op.opensMethod_iff.mp hd.top
  have hs : Running P.scopes ⟨topFrame ⟨0⟩, .root, []⟩ 0 (entryState room _) :=
    running_top hget hhoist hblock
  refine together_of_eq (newEnv_eq rfl hget) (newEnv_eq rfl hget) (together_modify ?_)
  have hat : At P.scopes .top ⟨topFrame ⟨0⟩, .root, []⟩ (entryState room _) :=
    ⟨hs, rfl, fun h => by cases h⟩
  refine Together.bind (runsNested_exec hd.scopes rfl hquiet b fuel (nested_of_scan hd.code) 0 hat)
    fun e s he => ?_
  exact (ensures_finish he).together

/-! ## Reports -/

/-- Runs a program on the watched machine and reports. -/
def reportWatched (watch : Instruction → Exec Unit) (fuel : Nat) (limits : Limits)
    (room : Option Nat) (p : Program) : Report :=
  match runBy (.watched watch) fuel limits p { output := { room } } with
  | .ok exit s => ⟨.ok exit, s.stack.reverse, s.output⟩
  | .error e s => ⟨.error e, s.stack.reverse, s.output⟩

/-- The watched machine is the machine when the watch does nothing. -/
theorem runBy_watched_pure (fuel : Nat) (limits : Limits) (p : Program) :
    runBy (.watched fun _ => pure ()) fuel limits p = runWithin fuel limits p := by
  have hhooks : Hooks.watched (fun _ => pure ()) = Hooks.plain := by
    funext cx
    simp only [Hooks.watched, Hooks.plain, bind_pure_unit]
  rw [hhooks, runWithin_eq_runBy]

theorem quiet_pure : Quiet T fun _ => pure () := fun _ _ _ => rfl

/-- The report of a run that ends in an orderly way. -/
theorem orderly_of_disciplined {P : Program} (hd : P.Disciplined k) (fuel : Nat) (limits : Limits)
    (room : Option Nat) (stop : Stop)
    (h : (reportWithin fuel limits room P).result = .error stop) : stop.Orderly := by
  obtain ⟨-, hrun⟩ := together_runWithin hd quiet_pure fuel limits limits.checkScopes room
  unfold reportWithin at h
  unfold Ensures Meets at hrun
  split at hrun
  · rename_i heq
    rw [heq] at h
    cases h
  · rename_i heq
    rw [heq] at h
    cases h
    exact hrun

/-- The program that `sumDown` becomes. -/
def sumDownProgram : Program := match Expr.sumDown.compile true with
  | .ok P => P
  | .error _ => { code := [] }

theorem compile_sumDown : Expr.sumDown.compile true = .ok sumDownProgram := by
  rfl

theorem size_sumDownProgram : sumDownProgram.scopes.size < 2 ^ 32 := by
  decide +kernel

/-! ## Compiled programs -/

variable {e : Expr} {used : Bool} {P : Program}

/-- **No run of a compiled program ends in a fault of its code**: it never lacks operands or a
frame, no signal escapes, no mark is executed, every block is found and every call with a block gets
one. Nor does it name a scope that is missing, or operands that cannot be counted. -/
theorem compiled_run_not_malformed (hc : e.Countable {}) (h : e.compile used = .ok P)
    (hsmall : P.scopes.size < 2 ^ 32) (fuel : Nat) (limits : Limits) (room : Option Nat) :
    (∀ err, (reportWithin fuel limits room P).result ≠ .error (.fault (.malformed err))) ∧
    (∀ s, (reportWithin fuel limits room P).result ≠ .error (.fault (.missingScope s))) ∧
    ∀ n, (reportWithin fuel limits room P).result ≠ .error (.fault (.countOverflow n)) := by
  have hd := disciplined_of_compile hc h (Nat.le_of_lt hsmall)
  have horderly := orderly_of_disciplined hd fuel limits room
  exact ⟨fun _ h => horderly _ h, fun _ h => horderly _ h, fun _ h => horderly _ h⟩

theorem sumDown_run_not_malformed :
    Expr.sumDown.compile true = .ok sumDownProgram ∧ sumDownProgram.scopes.size < 2 ^ 32 ∧
    ∀ err, (reportWithin 1000 { callDepth := 3, steps := some 900 } none sumDownProgram).result ≠
      .error (.fault (.malformed err)) :=
  ⟨compile_sumDown, size_sumDownProgram, (compiled_run_not_malformed Expr.countable_sumDown
    compile_sumDown size_sumDownProgram 1000 { callDepth := 3, steps := some 900 } none).1⟩

/-- **In every run of a compiled program the text and the run agree on every variable.** Any watch
that reacts only to an instruction whose lookups do not both succeed and agree has nothing to react
to. Hence no run ends with an unknown variable, and checking the lookups changes nothing. -/
theorem compiled_lookups_agree (hc : e.Countable {}) (h : e.compile used = .ok P)
    (hsmall : P.scopes.size < 2 ^ 32) (fuel : Nat) (limits : Limits) (room : Option Nat) :
    (∀ watch, Quiet P.scopes watch →
      reportWatched watch fuel limits room P = reportWithin fuel limits room P) ∧
    (∀ err, (reportWithin fuel limits room P).result ≠ .error (.fault (.unknownVariable err))) ∧
    reportWithin fuel { limits with checkScopes := true } room P =
      reportWithin fuel { limits with checkScopes := false } room P := by
  have hd := disciplined_of_compile hc h (Nat.le_of_lt hsmall)
  refine ⟨fun watch hquiet => ?_, fun _ h => orderly_of_disciplined hd fuel limits room _ h, ?_⟩
  · have hsame : runBy (.watched watch) fuel limits P _ = runWithin fuel limits P _ :=
      (together_runWithin hd hquiet fuel limits limits.checkScopes room).1
    unfold reportWatched reportWithin
    exact hsame ▸ rfl
  · obtain ⟨hsame, -⟩ := together_runWithin hd quiet_pure fuel
      { limits with checkScopes := true } false room
    rw [runBy_watched_pure] at hsame
    unfold reportWithin
    rw [← hsame]

theorem sumDown_lookups_agree :
    Expr.sumDown.compile true = .ok sumDownProgram ∧ sumDownProgram.scopes.size < 2 ^ 32 ∧
    reportWithin 1000 { callDepth := 3, checkScopes := true } none sumDownProgram =
      reportWithin 1000 { callDepth := 3, checkScopes := false } none sumDownProgram :=
  ⟨compile_sumDown, size_sumDownProgram, (compiled_lookups_agree Expr.countable_sumDown
    compile_sumDown size_sumDownProgram 1000 { callDepth := 3 } none).2.2⟩

end StackCode.Machine
