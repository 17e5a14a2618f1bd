import StackCode.Proofs.RewrittenRuns

/-!
# Programs without their unused values

The removal of unused values keeps what a program does, whatever its code, unless a run of the
program shows that the code is malformed: the copy of an operand that is not there goes together with
the pop behind it, and so does the fault.

Each rule of the pass is run beside what replaces it. A value that is pushed and popped at once
leaves nothing behind; and a store does not look at the operands below the value that it takes, so
that it does not matter whether a copy of that value lies there.
-/

namespace StackCode.Machine

variable {α β : Type} {cx : Setup} {i j : Instruction} {rest : List Instruction} {n start : Nat}

/-! ## Computations that leave the operands alone -/

/-- The outcome with other operands. -/
def withStack (stack : List Value) : EStateM.Result Stop State α → EStateM.Result Stop State α
  | .ok a s => .ok a { s with stack }
  | .error e s => .error e { s with stack }

/-- The computation neither sees nor changes the operands. -/
def OffStack (m : Exec α) : Prop :=
  ∀ s stack, m { s with stack } = withStack stack (m s)

/-- A computation off the operands leaves them as they are. -/
theorem OffStack.stack_eq {m : Exec α} (h : OffStack m) {s t : State} {a : α}
    (hm : m s = .ok a t) : t.stack = s.stack := by
  have heq := h s s.stack
  rw [hm] at heq
  injection heq with _ ht
  rw [ht]

theorem offStack_pure (a : α) : OffStack (pure a : Exec α) := fun _ _ => rfl

theorem offStack_fail (f : Fault) : OffStack (fail f : Exec α) := fun _ _ => rfl

theorem OffStack.bind {m : Exec α} {f : α → Exec β} (h : OffStack m) (hf : ∀ a, OffStack (f a)) :
    OffStack (m >>= f) := by
  intro s stack
  show EStateM.bind m f { s with stack } = withStack stack (EStateM.bind m f s)
  unfold EStateM.bind
  rw [h s stack]
  cases m s with
  | ok a t => exact hf a t stack
  | error e t => rfl

/-- Looking at the state is off the operands when what follows does not look at them. -/
theorem offStack_get {f : State → Exec β} (hsame : ∀ s stack, f { s with stack } = f s)
    (h : ∀ s, OffStack (f s)) : OffStack (get >>= f) := by
  intro s stack
  show f { s with stack } { s with stack } = withStack stack (f s s)
  rw [hsame]
  exact h s s stack

theorem offStack_frame (index : Nat) : OffStack (frame index) := by
  refine offStack_get (fun _ _ => rfl) fun s => ?_
  cases s.frames with
  | nil => exact offStack_fail _
  | cons f rest => exact offStack_pure f

theorem offStack_liftLookup (r : Except UnknownVariable α) : OffStack (liftLookup r) := by
  cases r with
  | ok a => exact offStack_pure a
  | error e => exact offStack_fail _

/-- A lookup goes through the environments only. -/
theorem offStack_checkLookup (cx : Setup) (env : EnvId) (scope : ScopeId) (name : String)
    (localOnly : Bool) (index : Nat) :
    OffStack (checkLookup cx env scope name localOnly index) := by
  unfold checkLookup
  split
  · split
    · exact offStack_fail _
    · refine (offStack_liftLookup _).bind fun expected => ?_
      refine offStack_get (fun _ _ => rfl) fun s => ?_
      refine (offStack_liftLookup _).bind fun ⟨owner, depth⟩ => ?_
      dsimp only
      split
      · exact offStack_fail _
      · exact offStack_pure _
  · exact offStack_pure _

/-! ## Instructions one by one -/

/-- The computation pushes some value, if the code is well formed. -/
def Pushes (act : Exec Unit) : Prop :=
  ∀ s, (∃ v, act s = .ok () { s with stack := v :: s.stack }) ∨
    ∃ e, act s = .error (.fault (.malformed e)) s

theorem pushes_push (v : Value) : Pushes (push v) := fun _ => .inl ⟨v, rfl⟩

/-- Pushing `self` fails only where there is no call to take it from, in malformed code. -/
theorem pushes_pushSelf (index : Nat) : Pushes (do push (← frame index).self) := by
  intro s
  obtain ⟨stack, frames, _⟩ := s
  cases frames with
  | nil => exact .inr ⟨_, rfl⟩
  | cons f rest => exact .inl ⟨f.self, rfl⟩

/-- Every instruction that the pass takes for a pure push is one. -/
theorem exists_performs_pushes (cx : Setup) (h : i.op.isPurePush = true) :
    ∃ act : Nat → Exec Unit, Performs cx i act ∧ ∀ index, Pushes (act index) := by
  obtain ⟨op, scope⟩ := i
  cases op with
  | pushInt | pushString | pushSymbol | pushNil | pushTrue | pushFalse =>
    exact ⟨_, fun _ _ _ => rfl, fun _ => pushes_push _⟩
  | pushSelf => exact ⟨_, fun _ _ _ => rfl, pushes_pushSelf⟩
  | _ => cases h

theorem performs_pop (h : i.op = .pop) : Performs cx i (fun index => do let _ ← pop index) := by
  obtain ⟨op, scope⟩ := i
  cases h
  exact fun _ _ _ => rfl

theorem performs_dup (h : i.op = .dup) : Performs cx i (fun index => do push (← peek index)) := by
  obtain ⟨op, scope⟩ := i
  cases h
  exact fun _ _ _ => rfl

/-- What a store does with the value that it took. -/
def save (cx : Setup) (i : Instruction) (index : Nat) (v : Value) : Exec Unit :=
  match i.op with
  | .setLocal name localOnly => assignLocal cx i.scope name localOnly index v
  | .setGlobal name => modify fun s => { s with globals := s.globals.insert name v }
  | _ => pure ()

/-- A store takes the value on top and saves it. -/
theorem performs_store (h : i.op.isStore = true) :
    Performs cx i (fun index => do save cx i index (← pop index)) := by
  obtain ⟨op, scope⟩ := i
  cases op with
  | setLocal | setGlobal => exact fun _ _ _ => rfl
  | _ => cases h

theorem offStack_save (cx : Setup) (i : Instruction) (index : Nat) (v : Value) :
    OffStack (save cx i index v) := by
  unfold save
  split
  · refine (offStack_frame index).bind fun f => ?_
    refine (offStack_checkLookup _ _ _ _ _ _).bind fun _ => ?_
    refine offStack_get (fun _ _ => rfl) fun s => ?_
    exact (offStack_liftLookup _).bind fun _ _ _ => rfl
  · exact fun _ _ => rfl
  · exact offStack_pure _

/-- A store in the rewritten code saves as the one in the original does, at another index. -/
theorem follows_save {P : Rewriting} {calls : List Frame} (cx : Setup) (i : Instruction)
    (index index' : Nat) (v : Value) :
    P.Follows calls (save cx i index v) (save cx i index' v) Eq := by
  unfold save
  split
  · exact Rewriting.follows_assignLocal cx _ _ _ index index' v
  · exact Rewriting.follows_modify fun s s' h => { h with globals := by rw [h.globals] }
  · exact Rewriting.follows_pure rfl

/-! ## Windows -/

/-- The stop says nothing about the program: its code is malformed, or the fuel is used up. -/
def Stop.Void : Stop → Prop
  | .outOfFuel | .fault (.malformed _) => True
  | _ => False

/-- The outcome says nothing about the program. -/
def Voided (r : EStateM.Result Stop State α) : Prop := ∃ e s, r = .error e s ∧ e.Void

/-- A pop takes the top operand; below the base of the call there is none to take. -/
theorem pop_cases {s : State} {v : Value} {below : List Value} (h : s.stack = v :: below)
    (index : Nat) : pop index s = .ok v { s with stack := below } ∨ Voided (pop index s) := by
  unfold pop
  rw [h]
  dsimp only
  split
  · exact .inl rfl
  · exact .inr ⟨_, _, rfl, trivial⟩

/-- A look at the top finds an operand of the current call, or the code is malformed. -/
theorem peek_cases (s : State) (index : Nat) :
    (∃ v below, s.stack = v :: below ∧ s.base < s.stack.length ∧ peek index s = .ok v s) ∨
      Voided (peek index s) := by
  unfold peek
  split
  · split
    · rename_i v below hs hbase
      exact .inl ⟨v, below, hs, hbase, rfl⟩
    · exact .inr ⟨_, _, rfl, trivial⟩
  · exact .inr ⟨_, _, rfl, trivial⟩

/-- Code that begins with a push goes on with one more operand, unless the run is void. -/
theorem exec_pushes (hcx : cx.Unlimited) {act : Nat → Exec Unit} (hi : Performs cx i act)
    (hact : ∀ index, Pushes (act index)) (n start : Nat) (rest : List Instruction) (s : State) :
    Voided (exec cx n ⟨start, i :: rest⟩ s) ∨ ∃ k v, n = k + 1 ∧
      exec cx n ⟨start, i :: rest⟩ s = exec cx k ⟨start + 1, rest⟩
        { s with stack := v :: s.stack, steps := s.steps + 1 } := by
  cases n with
  | zero => exact .inl ⟨_, _, rfl, trivial⟩
  | succ n =>
    rw [exec_of_performs hcx hi]
    show Voided (EStateM.bind _ _ _) ∨ ∃ k v, _ ∧ EStateM.bind _ _ _ = _
    unfold EStateM.bind
    rcases hact start { s with steps := s.steps + 1 } with ⟨v, h⟩ | ⟨e, h⟩
    · rw [h]
      exact .inr ⟨n, v, rfl, rfl⟩
    · rw [h]
      exact .inl ⟨_, _, rfl, trivial⟩

/-- Code that begins with a pop goes on without the top operand, unless the run is void. -/
theorem exec_pop (hcx : cx.Unlimited) (hj : j.op = .pop) (n start : Nat)
    (rest : List Instruction) {s : State} {v : Value} {below : List Value}
    (hs : s.stack = v :: below) :
    Voided (exec cx n ⟨start, j :: rest⟩ s) ∨ ∃ k, n = k + 1 ∧
      exec cx n ⟨start, j :: rest⟩ s = exec cx k ⟨start + 1, rest⟩
        { s with stack := below, steps := s.steps + 1 } := by
  cases n with
  | zero => exact .inl ⟨_, _, rfl, trivial⟩
  | succ n =>
    rw [exec_of_performs hcx (performs_pop hj)]
    show Voided (EStateM.bind (EStateM.bind _ _) _ _) ∨
      ∃ k, _ ∧ EStateM.bind (EStateM.bind _ _) _ _ = _
    unfold EStateM.bind
    rcases pop_cases (s := { s with steps := s.steps + 1 }) hs start with h | ⟨e, t, h, he⟩
    · rw [h]
      exact .inr ⟨n, rfl, rfl⟩
    · rw [h]
      exact .inl ⟨e, t, rfl, he⟩

/-- Code that begins with a copy goes on with the top operand twice, unless the run is void. -/
theorem exec_dup (hcx : cx.Unlimited) (hi : i.op = .dup) (n start : Nat)
    (rest : List Instruction) (s : State) :
    Voided (exec cx n ⟨start, i :: rest⟩ s) ∨ ∃ k v below, n = k + 1 ∧ s.stack = v :: below ∧
      s.base < s.stack.length ∧
      exec cx n ⟨start, i :: rest⟩ s = exec cx k ⟨start + 1, rest⟩
        { s with stack := v :: s.stack, steps := s.steps + 1 } := by
  cases n with
  | zero => exact .inl ⟨_, _, rfl, trivial⟩
  | succ n =>
    rw [exec_of_performs hcx (performs_dup hi)]
    show Voided (EStateM.bind (EStateM.bind _ _) _ _) ∨
      ∃ k v below, _ ∧ _ ∧ _ ∧ EStateM.bind (EStateM.bind _ _) _ _ = _
    unfold EStateM.bind
    rcases peek_cases { s with steps := s.steps + 1 } start with
      ⟨v, below, hs, hbase, h⟩ | ⟨e, t, h, he⟩
    · rw [h]
      exact .inr ⟨n, v, below, rfl, hs, hbase, rfl⟩
    · rw [h]
      exact .inl ⟨e, t, rfl, he⟩

/-- Code that begins with a store goes on below the value that the store takes. -/
theorem exec_store (hcx : cx.Unlimited) (hi : i.op.isStore = true) {s : State} {v : Value}
    {below : List Value} (hs : s.stack = v :: below) (hbase : s.base < s.stack.length) :
    exec cx (n + 1) ⟨start, i :: rest⟩ s =
      (save cx i start v >>= fun _ => exec cx n ⟨start + 1, rest⟩)
        { s with stack := below, steps := s.steps + 1 } := by
  rw [hs] at hbase
  have hpop : pop start { s with steps := s.steps + 1 } =
      .ok v { s with stack := below, steps := s.steps + 1 } :=
    pop_of_stack (s := { s with steps := s.steps + 1 }) hs (Nat.le_of_lt_succ hbase) start
  rw [exec_of_performs hcx (performs_store hi)]
  show EStateM.bind (EStateM.bind _ _) _ _ = EStateM.bind _ _ _
  simp only [EStateM.bind, hpop]

/-! ## The rules -/

/-- The pass neither removes nor inserts an instruction that opens or closes a block. -/
theorem plainRule_peephole : PlainRule Peephole.Rule := by
  intro old new hr i hi
  have hpop : ∀ {k : Instruction}, k.op = .pop → k.op.effect?.isSome = true :=
    fun h => by rw [h]; rfl
  have hdup : ∀ {k : Instruction}, k.op = .dup → k.op.effect?.isSome = true :=
    fun h => by rw [h]; rfl
  cases hr with
  | push hpush hj =>
    simp only [List.append_nil, List.mem_cons, List.not_mem_nil, or_false] at hi
    rcases hi with rfl | rfl
    · rw [effect?_of_isPurePush hpush]
      rfl
    · exact hpop hj
  | dup hd hj =>
    simp only [List.append_nil, List.mem_cons, List.not_mem_nil, or_false] at hi
    rcases hi with rfl | rfl
    · exact hdup hd
    · exact hpop hj
  | store hd hs hj =>
    simp only [List.cons_append, List.nil_append, List.mem_cons, List.not_mem_nil, or_false] at hi
    rcases hi with rfl | rfl | rfl | rfl
    · exact hdup hd
    · rw [effect?_of_isStore hs]
      rfl
    · exact hpop hj
    · rw [effect?_of_isStore hs]
      rfl

/-- The removal of unused values. It need not keep that code is malformed. -/
def unusedValues : Rewriting where
  rule := Peephole.Rule
  plain := plainRule_peephole
  exempt := Stop.Void
  exempt_fuel := trivial
  exempt_leave {e} he f := by
    cases e with
    | outOfFuel => exact he
    | fault e => cases e <;> exact he
  exempt_unplaced {e} := by
    cases e with
    | outOfFuel => exact Iff.rfl
    | fault e => cases e <;> exact Iff.rfl

/-- A void run need not be matched. -/
theorem alike_of_voided {r : EStateM.Result Stop State α} {r' : EStateM.Result Stop State β}
    {calls : List Frame} {R : α → β → Prop} (h : Voided r) :
    unusedValues.Alike calls R r r' := by
  obtain ⟨e, t, rfl, he⟩ := h
  exact .exempt he

section

variable {calls : List Frame} {rest' : List Instruction} {n' start' : Nat} {s s' : State}
  {v : Value} {below : List Value}

/-- A pop that ends a window is followed by nothing. -/
theorem alike_pop (hcx : cx.Unlimited) (hj : j.op = .pop)
    (hrest : unusedValues.RunsBehind cx n rest rest') {k : Nat} (hk : k < n) (hn : k ≤ n')
    (hs : s.stack = v :: below) (h : unusedValues.Like calls { s with stack := below } s') :
    unusedValues.Alike calls Rewriting.EndAlike (exec cx k ⟨start, j :: rest⟩ s)
      (exec cx n' ⟨start', rest'⟩ s') := by
  rcases exec_pop hcx hj k start rest hs with hv | ⟨k, rfl, heq⟩
  · exact alike_of_voided hv
  · rw [heq]
    exact hrest (by omega) (by omega) _ _ { h with }

/-- A store and the pop of the copy below its value are followed by the store. -/
theorem alike_store_pop (hcx : cx.Unlimited) (hi : i.op.isStore = true) (hj : j.op = .pop)
    (hrest : unusedValues.RunsBehind cx n rest rest') {k : Nat} (hk : k + 1 < n) (hn : k ≤ n')
    (hs : s.stack = v :: v :: below) (hbase : s.base ≤ below.length)
    (h : unusedValues.Like calls { s with stack := v :: below } s') :
    unusedValues.Alike calls Rewriting.EndAlike (exec cx (k + 1) ⟨start, i :: j :: rest⟩ s)
      (exec cx (n' + 1) ⟨start', i :: rest'⟩ s') := by
  have hs' : s'.stack = v :: below := h.stack
  have hbase' : s'.base < s'.stack.length := by
    rw [hs', h.base]
    exact Nat.lt_succ_of_le hbase
  rw [exec_store hcx hi hs (by rw [hs]; simp; omega), exec_store hcx hi hs' hbase']
  -- with the copy taken away, the two stores start from like states
  let t : State := { s with stack := below, steps := s.steps + 1 }
  let t' : State := { s' with stack := below, steps := s'.steps + 1 }
  have hlike : unusedValues.Like calls t t' :=
    { h with
      stacked := ⟨h.stacked.frames_eq, h.stacked.bases, h.base_eq_floorOf ▸ hbase⟩
      stack := rfl }
  have hsave := follows_save cx i start start' v hlike
  have hoff := offStack_save cx i start v
  show unusedValues.Alike calls _ (EStateM.bind _ _ { t with stack := v :: below })
    (EStateM.bind _ _ t')
  unfold EStateM.bind
  rw [hoff t (v :: below)]
  have hstack : ∀ {u}, save cx i start v t = .ok () u → u.stack = below := hoff.stack_eq
  generalize save cx i start v t = r, save cx i start' v t' = r' at hsave hstack ⊢
  cases hsave with
  | @ok _ _ u u' _ hu =>
    refine alike_pop hcx hj hrest (by omega) hn rfl (?_ : unusedValues.Like calls
      { u with stack := below } u')
    rw [← hstack rfl]
    exact hu
  | error he hu => exact .error he ⟨hu.frames, hu.output⟩
  | exempt he => exact .exempt he

end

/-- **Every rule of the pass is sound.** -/
theorem sound_unusedValues (hcx : cx.Unlimited) : unusedValues.Sound cx := by
  intro old new hr rest rest' n n' hn hrest calls start start' s s' h
  cases hr with
  | @push i j hi hj =>
    obtain ⟨act, hperf, hact⟩ := exists_performs_pushes cx hi
    rcases exec_pushes hcx hperf hact n start (j :: rest) s with hv | ⟨k, v, rfl, heq⟩
    · exact alike_of_voided hv
    · show unusedValues.Alike calls _ (exec cx _ ⟨start, i :: j :: rest⟩ s) _
      rw [heq]
      exact alike_pop hcx hj hrest (by omega) (by omega) rfl { h with }
  | @dup i j hi hj =>
    rcases exec_dup hcx hi n start (j :: rest) s with hv | ⟨k, v, below, rfl, -, -, heq⟩
    · exact alike_of_voided hv
    · show unusedValues.Alike calls _ (exec cx _ ⟨start, i :: j :: rest⟩ s) _
      rw [heq]
      exact alike_pop hcx hj hrest (by omega) (by omega) rfl { h with }
  | @store i st j hi hst hj =>
    rcases exec_dup hcx hi n start (st :: j :: rest) s with
      hv | ⟨k, v, below, rfl, hs, hbase, heq⟩
    · exact alike_of_voided hv
    show unusedValues.Alike calls _ (exec cx (k + 1) ⟨start, i :: st :: j :: rest⟩ s)
      (exec cx n' ⟨start', st :: rest'⟩ s')
    rw [heq]
    cases k with
    | zero => exact alike_of_voided ⟨_, _, rfl, trivial⟩
    | succ k =>
      -- the original has taken up one instruction more than the store alone
      obtain ⟨n', rfl⟩ : ∃ m, n' = m + 1 := ⟨n' - 1, by omega⟩
      refine alike_store_pop hcx hst hj hrest (by omega) (by omega) (congrArg (v :: ·) hs) ?_ ?_
      · rw [hs] at hbase
        exact Nat.le_of_lt_succ hbase
      · exact { h with stacked := hs ▸ h.stacked, stack := h.stack.trans hs }

/-! ## Programs -/

/-- **The removal of unused values keeps what a program does.** If a run of the program ends, and
not because its code is malformed, then the program without its unused values ends within the same
fuel: with the same output, the same exit and operands, or the same fault up to the indices in it.
-/
theorem dropUnused_preserves_runs (p : Program) (limits : Limits) (room : Option Nat)
    {fuel fuel' : Nat} (hsteps : limits.steps = none) (hstack : limits.stack = none)
    (hfuel : fuel ≤ fuel')
    (hends : (reportWithin fuel limits room p).result ≠ .error .outOfFuel)
    (hformed : ∀ e, (reportWithin fuel limits room p).result ≠ .error (.fault (.malformed e))) :
    (reportWithin fuel' limits room { p with code := dropUnused p.code }).result ≠
        .error .outOfFuel ∧
      (reportWithin fuel limits room p).Matches
        (reportWithin fuel' limits room { p with code := dropUnused p.code }) := by
  have hcx : Setup.Unlimited ⟨limits, p.scopes⟩ := ⟨hsteps, hstack⟩
  have hnot : ∀ e, (reportWithin fuel limits room p).result = .error e → ¬ e.Void := by
    intro e he hv
    unfold Stop.Void at hv
    split at hv
    · exact hends he
    · exact hformed _ he
    · exact hv
  have hmatch := unusedValues.report_matches_of_chain hcx (sound_unusedValues hcx)
    (dropUnused_rewrites p.code) hfuel room hnot
  refine ⟨fun hout => ?_, hmatch⟩
  obtain ⟨e, he, heq⟩ := hmatch.exists_error hout
  exact hnot e he (unusedValues.exempt_unplaced.mp (heq ▸ trivial))

/-- Prints a number in a loop of one round. Each of the rules has a use in it, and one pop can go
only when the pop before it has gone. -/
def printOnce : Program where
  code := [.pushInt 3, .dup, .setGlobal "$n", .pop,
    .whileTrue, .getGlobal "$n", .loopBody,
      .getGlobal "$n", .dup, .pop, .send "puts" 1 false false, .pop,
      .pushNil, .dup, .setGlobal "$n", .pop,
    .endBlock .loop,
    .pushSelf, .pushNil, .pop, .pop, .getGlobal "$n"].map (⟨·, .root⟩)

theorem result_printOnce :
    (reportWithin 40 {} none printOnce).result = .ok (.finished (some .nil)) := by
  have h : (reportWithin 40 {} none printOnce).result.toOption =
      some (.finished (some .nil)) := by
    decide +kernel
  cases hr : (reportWithin 40 {} none printOnce).result with
  | error e =>
    rw [hr] at h
    cases h
  | ok exit =>
    rw [hr] at h
    cases h
    rfl

theorem dropUnused_preserves_printOnce :
    (dropUnused printOnce.code).length + 10 = printOnce.code.length ∧
    (reportWithin 40 {} none printOnce).result = .ok (.finished (some .nil)) ∧
    (reportWithin 40 {} none printOnce).Matches
      (reportWithin 50 {} none { printOnce with code := dropUnused printOnce.code }) := by
  have hends : ∀ e, (reportWithin 40 {} none printOnce).result ≠ .error e := by
    intro e he
    rw [result_printOnce] at he
    cases he
  exact ⟨by decide, result_printOnce, (dropUnused_preserves_runs printOnce {} none rfl rfl
    (by decide) (hends _) fun e => hends _).2⟩

end StackCode.Machine
