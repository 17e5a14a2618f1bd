import StackCode.Proofs.Backtraces
import StackCode.Proofs.Simulation
import StackCode.Proofs.StepLimit

/-!
# The bases of calls

A call begins at some height of the operand stack, its base, and may not reach below it. In every
state that a run comes to, the bases of the active calls lie one above the other and the operands
reach up to the last one at least (`Reached.base_le`), whatever the program is and whether or not
its heights were checked.

The states of a run are seen on the machine that undoes no call that fails: a step limit stops it
before any instruction that one likes, in the state in which that instruction would run.
-/

namespace StackCode.Machine

variable {α β : Type} {calls : List Frame} {f : Frame} {h : Nat} {s t : State}

/-! ## Balanced computations -/

/-- How a balanced computation of the innermost of `calls` ends: with a result, and `calls` active
again, or stopped, perhaps inside of other calls. Nothing was taken from below a base. -/
inductive Balance (calls : List Frame) : EStateM.Result Stop State α → Prop
  | ok (a : α) {t : State} (ht : Stacked calls t.frames t.stack.length) : Balance calls (.ok a t)
  | error (e : Stop) {t : State} {inner : List Frame}
      (ht : Stacked inner t.frames t.stack.length) : Balance calls (.error e t)

/-- The computation, the only one of its family, leaves the calls that it found and takes nothing
from below them. -/
def Balanced (calls : List Frame) (α : Type) (m : Unit → Exec α) : Prop :=
  ∀ s, Stacked calls s.frames s.stack.length → Balance calls (m () s)

/-- The operands may change as long as they reach up to the innermost base. -/
theorem Stacked.atHeight {k : Nat} {frames : List Frame} (hs : Stacked calls frames h)
    (hk : floorOf calls ≤ k) : Stacked calls frames k :=
  ⟨hs.frames_eq, hs.bases, hk⟩

/-- The base of the current call is the last of the bases. -/
theorem Stacked.base_eq (hs : Stacked calls s.frames h) : s.base = floorOf calls := by
  rw [s.base_eq_floorOf, hs.frames_eq]

/-- What stands on balanced calls is balanced. -/
theorem balanced_bind {m : Unit → Exec α} {g : Unit → α → Exec β} (hm : Balanced calls α m)
    (hg : ∀ a, Balanced calls β fun i => g i a) : Balanced calls β fun i => m i >>= g i := by
  intro s hs
  have hres := hm s hs
  show Balance calls (EStateM.bind (m ()) (g ()) s)
  unfold EStateM.bind
  generalize m () s = r at hres
  cases hres with
  | ok a ht => exact hg a _ ht
  | error e ht => exact .error e ht

theorem balanced_pop (index : Nat) : Balanced calls Value fun _ => pop index := by
  intro s hs
  show Balance calls (pop index s)
  rcases s.operand_cases with hlow | ⟨v, below, hstack, hbase⟩
  · rw [pop_of_length_le hlow]
    exact .error _ hs
  · rw [pop_of_stack hstack hbase]
    exact .ok v (hs.atHeight (hs.base_eq ▸ hbase))

theorem balanced_peek (index : Nat) : Balanced calls Value fun _ => peek index := by
  intro s hs
  show Balance calls (peek index s)
  rcases s.operand_cases with hlow | ⟨v, below, hstack, hbase⟩
  · rw [peek_of_length_le hlow]
    exact .error _ hs
  · rw [peek_of_stack hstack hbase]
    exact .ok v hs

theorem balanced_popN (n : UInt64) (index : Nat) :
    Balanced calls (List Value) fun _ => popN n index := by
  intro s hs
  show Balance calls (popN n index s)
  unfold popN
  split
  · exact .error _ hs
  · rename_i hn
    rw [hs.base_eq] at hn
    refine .ok _ (hs.atHeight ?_)
    rw [List.length_drop]
    omega

theorem balanced_frame (index : Nat) : Balanced calls Frame fun _ => frame index := by
  intro s hs
  show Balance calls (frame index s)
  rw [frame_eq_match]
  split
  · exact .error _ hs
  · exact .ok _ hs

theorem balanced_write (text : String) : Balanced calls Unit fun _ => write text := by
  intro s hs
  show Balance calls (write text s)
  unfold write
  dsimp only
  split
  · exact .ok () hs
  split
  · exact .ok () hs
  · exact .error _ hs

/-- Operands may be cut off down to the base. -/
theorem balanced_truncate (hh : floorOf calls ≤ h) : Balanced calls Unit fun _ => truncate h := by
  intro s hs
  have hfloor := hs.grounded
  refine .ok () (hs.atHeight ?_)
  show _ ≤ (s.stack.drop (s.stack.length - h)).length
  rw [List.length_drop]
  omega

theorem balanced_tick (cx : Setup) : Balanced calls Unit fun _ => tick cx := by
  intro s hs
  show Balance calls (tick cx s)
  rw [tick_eq]
  split
  · exact .ok () hs
  · exact .error _ hs

/-- The operations of the machine are balanced. -/
theorem congruence_balanced (calls : List Frame) : Congruence .any (Balanced calls) where
  pure a _ hs := .ok a hs
  bind := balanced_bind
  fail _ _ _ hs := .error _ hs
  read hf s hs := hf (fun _ => s) s.shared (fun _ => rfl) (Terms.holds_any _) s hs
  update _ _ _ hs := .ok () hs
  push _ _ hs := .ok () (hs.atHeight (Nat.le_succ_of_le hs.grounded))
  pop := balanced_pop
  peek := balanced_peek
  popN := balanced_popN
  frame index hf := balanced_bind (balanced_frame index) fun f => hf f trivial
  write := balanced_write

/-! ## Calls -/

/-- Leaving a call goes down to its base, which lies above that of its caller. -/
theorem Stacked.leaveCall (ht : Stacked (f :: calls) t.frames t.stack.length) :
    Stacked calls t.leaveCall.frames t.leaveCall.stack.length := by
  have hbase : f.base ≤ t.stack.length := ht.grounded
  have hbelow := ht.floorOf_le
  rw [leaveCall_of_frames ht.frames_eq]
  refine ht.leave.atHeight ?_
  show _ ≤ (t.stack.drop (t.stack.length - f.base)).length
  rw [List.length_drop]
  omega

/-- The end of a call brings back the calls around it, unless the call has failed. -/
theorem Balance.leaveHeld {r : EStateM.Result Stop State Completion} (hr : Balance (f :: calls) r) :
    Balance calls (leaveHeld r) := by
  cases hr with
  | ok c ht => exact .ok c ht.leaveCall
  | error e ht => exact .error e ht

section

variable {cx : Setup} {run : Segment → Exec Ended}
  (hrun : ∀ seg calls, Balanced calls Ended fun _ => run seg)

include hrun

/-- A new call begins at the top of the operands. -/
theorem balanced_call (body : Segment) (scope : ScopeId) (parent : Option EnvId) (isBlock : Bool)
    {frame : EnvId → Nat → Frame} (hframe : ∀ env base, (frame env base).base = base) :
    Balanced calls Completion fun _ =>
      callBy leaveHeld cx run body scope parent isBlock frame := by
  intro s hs
  dsimp only
  rw [callBy_eq]
  split
  · exact .error _ hs
  cases Env.ofScope? cx.scopes scope parent with
  | none => exact .error _ hs
  | some env =>
    let f := frame s.envs.next s.stack.length
    have hbody := balanced_bind (hrun body (f :: calls))
      ((congruence_balanced (f :: calls)).complete isBlock)
    exact (hbody _ (hs.enter (hframe _ _))).leaveHeld

/-- Instructions are balanced if the code that they run is. -/
theorem upholds_balanced (fuel : Nat) :
    Upholds .any (fun α m => ∀ calls, Balanced calls α m) (fun _ => leaveHeld) (fun _ => cx)
      (fun _ => run) fun _ => fuel where
  toCongruence := Congruence.all congruence_balanced
  runs _ := hrun _
  lookup _ env _ _ calls := (congruence_balanced calls).checkLookup (fun _ => rfl)
    (fun _ => rfl) (fun _ _ hs => .error _ hs) env _
  call _ hcalls parent isBlock _ := balanced_call hrun _ _ parent isBlock hcalls.base_eq
  whileTrue _ _ index calls s hs :=
    (congruence_balanced calls).loop (fun _ hs => .error _ hs) (hrun _ calls) (hrun _ calls)
      (balanced_truncate hs.grounded) index fuel s hs

end

/-! ## Runs -/

/-- **Code is balanced**, however much of it runs, on the machine that undoes no failed call. -/
theorem balanced_exec (cx : Setup) (n : Nat) (seg : Segment) (calls : List Frame) :
    Balanced calls Ended fun _ => execBy (.held cx) cx n seg := by
  have htick : ∀ (i : Instruction) (calls : List Frame),
      Balanced calls Unit fun _ => (Hooks.held cx).before i := fun _ _ => balanced_tick cx
  exact (Congruence.all congruence_balanced).execBy (fun _ _ hs => .error _ hs) htick
    (fun n hrun => upholds_balanced (fun _ => hrun trivial) n) n trivial calls

/-- A state of a run of the program. Where a run stops on the machine that undoes no failed call, at
a limit or with a fault, or comes to its end, it is in such a state; so it is when operands were
taken there, as a message takes its block before its arguments. -/
inductive Reached (p : Program) : State → Prop
  | stop (fuel : Nat) (limits : Limits) (room : Option Nat) :
    Reached p (endState (runBy .held fuel limits p { output := { room } }))
  | popped {s t : State} {v : Value} {index : Nat} (hs : Reached p s)
    (hpop : pop index s = .ok v t) : Reached p t

/-- However a run ends, its calls lie one above the other. -/
theorem Balance.exists_stacked {r : EStateM.Result Stop State α} (hr : Balance calls r) :
    ∃ inner, Stacked inner (endState r).frames (endState r).stack.length := by
  cases hr with
  | ok a ht => exact ⟨calls, ht⟩
  | error e ht => exact ⟨_, ht⟩

/-- **In every state of a run the bases of the calls lie one above the other**, and the operands
reach up to the innermost of them. -/
theorem Reached.exists_stacked {p : Program} (hs : Reached p s) :
    ∃ calls, Stacked calls s.frames s.stack.length := by
  induction hs with
  | stop fuel limits room =>
    rw [runBy_eq]
    cases Env.ofScope? p.scopes .root none with
    | none => exact ⟨[], rfl, .nil, Nat.le_refl 0⟩
    | some env =>
      have hrun := balanced_bind
        (balanced_exec ⟨limits, p.scopes⟩ fuel p.segment [topFrame ⟨0⟩])
        ((congruence_balanced _).finish fun _ hs => .ok _ hs)
      exact (hrun _ ⟨rfl, List.pairwise_singleton _ _, Nat.zero_le _⟩).exists_stacked
  | @popped s t v index _ hpop ih =>
    obtain ⟨calls, hcalls⟩ := ih
    have hres : Balance calls (pop index s) := balanced_pop index s hcalls
    rw [hpop] at hres
    exact hres.exists_stacked

/-- **No call begins above the operands.** -/
theorem Reached.base_le {p : Program} (hs : Reached p s) : s.base ≤ s.stack.length := by
  obtain ⟨calls, hcalls⟩ := hs.exists_stacked
  rw [hcalls.base_eq]
  exact hcalls.grounded

end StackCode.Machine
