import StackCode.Proofs.Congruence

/-!
# Calls keep to their own operands

The operands of a call stand on those of its caller. What is underneath makes no difference to code
(`OwnOnly`): with other operands there, as many, it does the same, and what was there is still there
afterwards. This holds of segments because the operations on the stack stop at the base of the
current call (`Ground.congruence`), a loop cuts the stack down to where it began, and a call leaves
the operands and the calls of its caller as they were (`call_untouched`).

Main result: **`calls_isolated`**, for methods and blocks, from any state, whatever the code of the
body is and however the call ends.
-/

namespace StackCode.Machine

/-! ## Two runs over different operands -/

/-- Two results that say the same, in states that are related. -/
inductive Alike (P : State → State → Prop) {α : Type} :
    EStateM.Result Stop State α → EStateM.Result Stop State α → Prop
  | ok (a : α) {t t' : State} : P t t' → Alike P (.ok a t) (.ok a t')
  | error (e : Stop) {t t' : State} : P t t' → Alike P (.error e t) (.error e t')

theorem Alike.mono {P Q : State → State → Prop} {α : Type} {r r' : EStateM.Result Stop State α}
    (h : Alike P r r') (hpq : ∀ {t t'}, P t t' → Q t t') : Alike Q r r' := by
  cases h with
  | ok a ht => exact .ok a (hpq ht)
  | error e ht => exact .error e (hpq ht)

/-- What the current call stands on: the calls around it, and the operands below its own. In another
run those operands are others, as many. -/
structure Ground where
  frames : List Frame
  below : List Value
  other : List Value
  floor : floorOf frames = below.length
  same : other.length = below.length

/-- Two states that differ in the operands below the current call, and only there. -/
def Ground.Apart (g : Ground) (s s' : State) : Prop :=
  s.frames = g.frames ∧ ∃ own, s.stack = own ++ g.below ∧ s' = { s with stack := own ++ g.other }

/-- The computations do the same over the operands of two runs. -/
def Ground.Keeps (g : Ground) (α : Type) (m m' : Exec α) : Prop :=
  ∀ s s', g.Apart s s' → Alike g.Apart (m s) (m' s')

/-- The computations do the same, whatever the current call stands on. -/
def OwnOnly (α : Type) (m m' : Exec α) : Prop := ∀ g : Ground, g.Keeps α m m'

namespace Ground

variable {g : Ground} {s s' : State} {α β : Type}

theorem Apart.base (h : g.Apart s s') : s.base = g.below.length := by
  rw [State.base_eq_floorOf, h.1, g.floor]

theorem Apart.base' (h : g.Apart s s') : s'.base = g.below.length := by
  obtain ⟨hframes, own, -, rfl⟩ := h
  rw [State.base_eq_floorOf]
  exact (congrArg floorOf hframes).trans g.floor

/-- Two runs that differ below the base share everything but operands. -/
theorem Apart.shared (h : g.Apart s s') : s'.shared = s.shared := by
  obtain ⟨-, own, -, rfl⟩ := h
  rfl

theorem Apart.length (h : g.Apart s s') : s'.stack.length = s.stack.length := by
  obtain ⟨-, own, hstack, rfl⟩ := h
  rw [hstack, List.length_append, List.length_append, g.same]

/-- What is underneath stays the same from one computation to the next. -/
theorem keeps_bind {m m' : Exec α} {f f' : α → Exec β} (hm : g.Keeps α m m')
    (hf : ∀ a, g.Keeps β (f a) (f' a)) : g.Keeps β (m >>= f) (m' >>= f') := by
  intro s s' h
  show Alike g.Apart (EStateM.bind m f s) (EStateM.bind m' f' s')
  have hres := hm s s' h
  unfold EStateM.bind
  generalize m s = r, m' s' = r' at hres
  cases hres with
  | ok a ht => exact hf a _ _ ht
  | error e ht => exact .error e ht

/-! ## Operations on the stack -/

/-- A call finds an operand if it has one itself, and then the same in both runs. -/
theorem Apart.operand (h : g.Apart s s') :
    (s.stack.length ≤ s.base ∧ s'.stack.length ≤ s'.base) ∨
      ∃ v below below', s.stack = v :: below ∧ s.base ≤ below.length ∧
        s'.stack = v :: below' ∧ s'.base ≤ below'.length ∧
        g.Apart { s with stack := below } { s' with stack := below' } := by
  have hbase := h.base
  have hbase' := h.base'
  obtain ⟨hframes, own, hstack, rfl⟩ := h
  cases own with
  | nil => exact .inl ⟨by simp [hstack, hbase], Nat.le_of_eq (g.same.trans hbase'.symm)⟩
  | cons v own =>
    refine .inr ⟨v, own ++ g.below, own ++ g.other, hstack, ?_, rfl, ?_, hframes, own, rfl, rfl⟩
    · simp [hbase]
    · rw [hbase', List.length_append, g.same]
      exact Nat.le_add_left ..

theorem keeps_pop (index : Nat) : g.Keeps Value (pop index) (pop index) := by
  intro s s' h
  rcases h.operand with ⟨hlow, hlow'⟩ | ⟨v, below, below', hs, hb, hs', hb', ht⟩
  · rw [pop_of_length_le hlow, pop_of_length_le hlow']
    exact .error _ h
  · rw [pop_of_stack hs hb, pop_of_stack hs' hb']
    exact .ok v ht

theorem keeps_peek (index : Nat) : g.Keeps Value (peek index) (peek index) := by
  intro s s' h
  rcases h.operand with ⟨hlow, hlow'⟩ | ⟨v, below, below', hs, hb, hs', hb', -⟩
  · rw [peek_of_length_le hlow, peek_of_length_le hlow']
    exact .error _ h
  · rw [peek_of_stack hs hb, peek_of_stack hs' hb']
    exact .ok v h

theorem keeps_popN (n : UInt64) (index : Nat) :
    g.Keeps (List Value) (popN n index) (popN n index) := by
  intro s s' h
  unfold popN
  rw [h.base, h.base', h.length]
  split
  · exact .error _ h
  · rename_i hn
    obtain ⟨hframes, own, hstack, rfl⟩ := h
    have hown : n.toNat ≤ own.length := by
      rw [hstack, List.length_append] at hn
      omega
    simp only [hstack, List.take_append_of_le_length hown, List.drop_append_of_le_length hown]
    exact .ok _ ⟨hframes, own.drop n.toNat, rfl, rfl⟩

/-- Cutting the stack down to a height of the current call leaves what is underneath. -/
theorem keeps_truncate {height : Nat} (hheight : g.below.length ≤ height) :
    g.Keeps Unit (truncate height) (truncate height) := by
  intro s s' h
  have hlength := h.length
  obtain ⟨hframes, own, hstack, rfl⟩ := h
  have hown : s.stack.length - height ≤ own.length := by
    rw [hstack, List.length_append]
    omega
  refine .ok () ⟨hframes, own.drop (s.stack.length - height), ?_, ?_⟩
  · show s.stack.drop (s.stack.length - height) = _
    generalize s.stack.length - height = k at hown
    rw [hstack, List.drop_append_of_le_length hown]
  · show State.truncate _ height = _
    unfold State.truncate
    rw [hlength]
    simp only [List.drop_append_of_le_length hown]

/-- The current call is the same in both runs. -/
theorem keeps_frame (index : Nat) : g.Keeps Frame (frame index) (frame index) := by
  intro s s' h
  have hframes : s'.frames = s.frames := by
    obtain ⟨-, own, -, rfl⟩ := h
    rfl
  rw [frame_eq_match, frame_eq_match, hframes]
  split
  · exact .error _ h
  · exact .ok _ h

theorem keeps_write (text : String) : g.Keeps Unit (write text) (write text) := by
  rintro s s' ⟨hframes, own, hstack, rfl⟩
  unfold write
  dsimp only
  split
  · exact .ok () ⟨hframes, own, hstack, rfl⟩
  split
  · exact .ok () ⟨hframes, own, hstack, rfl⟩
  · exact .error _ ⟨hframes, own, hstack, rfl⟩

theorem keeps_tick (cx : Setup) : g.Keeps Unit (tick cx) (tick cx) := by
  intro s s' h
  have hlength := h.length
  obtain ⟨hframes, own, hstack, rfl⟩ := h
  rw [tick_eq, tick_eq, hlength]
  dsimp only
  split
  · exact .ok () ⟨hframes, own, hstack, rfl⟩
  · exact .error _ ⟨hframes, own, hstack, rfl⟩

/-- The operations of the machine keep to the operands of the current call. -/
theorem congruence (g : Ground) : Congruence .any (Paired g.Keeps) where
  pure a s s' h := .ok a h
  bind := keeps_bind
  fail f _ s s' h := .error _ h
  read hf s s' h := paired_of_shared hf h.shared (Terms.holds_any _) s s' h
  update f _ := by
    rintro s s' ⟨hframes, own, hstack, rfl⟩
    exact .ok () ⟨hframes, own, hstack, rfl⟩
  push v := by
    rintro s s' ⟨hframes, own, hstack, rfl⟩
    exact .ok () ⟨hframes, v :: own, congrArg (v :: ·) hstack, rfl⟩
  pop := keeps_pop
  peek := keeps_peek
  popN := keeps_popN
  frame index hf := keeps_bind (keeps_frame index) fun f => hf f trivial
  write := keeps_write

end Ground

/-! ## Calls -/

/-- The calls and the operands of `s` are there, and the second state differs from the first in that
it has `other` operands. -/
def Untouched (s : State) (other : List Value) (t t' : State) : Prop :=
  t.frames = s.frames ∧ t.stack = s.stack ∧ t' = { t with stack := other }

/-- Leaving a call brings back what it stood on. -/
theorem leaveCall_untouched {s : State} {other : List Value} {f : Frame}
    (hbase : f.base = s.stack.length) (hother : other.length = s.stack.length)
    {r r' : EStateM.Result Stop State Completion}
    (h : Alike (Ground.Apart ⟨f :: s.frames, s.stack, other, hbase, hother⟩) r r') :
    Alike (Untouched s other) (leaveCall r) (leaveCall r') := by
  have leave : ∀ {t t' : State},
      Ground.Apart ⟨f :: s.frames, s.stack, other, hbase, hother⟩ t t' →
      t'.frames = t.frames ∧ Untouched s other t.leaveCall t'.leaveCall := by
    rintro t t' ⟨hframes, own, hstack, rfl⟩
    dsimp only at hframes hstack
    have hdrop : ∀ below : List Value, below.length = s.stack.length →
        (own ++ below).drop ((own ++ below).length - s.stack.length) = below := by
      intro below hbelow
      rw [List.length_append, hbelow, Nat.add_sub_cancel, List.drop_left]
    refine ⟨rfl, ?_, ?_, ?_⟩
    · simp only [State.leaveCall, hframes, State.truncate]
    · simp only [State.leaveCall, hframes, State.truncate, hstack, hbase, hdrop s.stack rfl]
    · simp only [State.leaveCall, hframes, State.truncate, hbase, hdrop other hother]
  cases h with
  | ok c ht => exact .ok c (leave ht).2
  | @error e t t' ht =>
    show Alike _ (.error (t.frames.head?.elim e e.leave) _)
      (.error (t'.frames.head?.elim e e.leave) _)
    rw [(leave ht).1]
    exact .error _ (leave ht).2

/-- **A call leaves the calls and the operands of its caller as they were**, and does the same
whatever those operands are. -/
theorem call_untouched (cx : Setup) {run run' : Segment → Exec Ended}
    (hrun : ∀ seg, OwnOnly Ended (run seg) (run' seg)) (body : Segment) (scope : ScopeId)
    (parent : Option EnvId) (isBlock : Bool) {frame : EnvId → Nat → Frame}
    (hframe : ∀ env base, (frame env base).base = base) (s : State) {other : List Value}
    (hother : other.length = s.stack.length) :
    Alike (Untouched s other) (call cx run body scope parent isBlock frame s)
      (call cx run' body scope parent isBlock frame { s with stack := other }) := by
  have same : Untouched s other s { s with stack := other } := ⟨rfl, rfl, rfl⟩
  rw [call_eq, call_eq]
  show Alike _ (if _ ≤ s.callDepth then _ else _) (if _ ≤ s.callDepth then _ else _)
  split
  · exact .error _ same
  split
  · exact .error _ same
  · rename_i env henv
    dsimp only
    rw [hother]
    have hbase := hframe s.envs.next s.stack.length
    let g : Ground := ⟨frame s.envs.next s.stack.length :: s.frames, s.stack, other, hbase, hother⟩
    have hin := Ground.keeps_bind (hrun body g) (g.congruence.complete isBlock)
    exact leaveCall_untouched (s := s) hbase hother (hin _ _ ⟨rfl, [], rfl, rfl⟩)

/-! ## Segments -/

/-- Whatever the current call stands on, the operations of the machine keep to its operands. -/
theorem congruence_ownOnly : Congruence .any (Paired OwnOnly) := Congruence.all Ground.congruence

/-- Instructions keep to the operands of the current call if the code that they run does. -/
theorem upholds_ownOnly (cx : Setup) {run : Bool → Segment → Exec Ended} (n : Nat)
    (hrun : ∀ seg, OwnOnly Ended (run false seg) (run true seg)) :
    Upholds .any (Paired OwnOnly) (fun _ => leaveCall) (fun _ => cx) run fun _ => n where
  toCongruence := congruence_ownOnly
  runs _ := hrun _
  lookup _ env _ _ := congruence_ownOnly.checkLookup (fun _ => rfl) (fun _ => rfl)
    (fun _ g s s' h => .error _ h) env _
  call _ hcalls parent isBlock := by
    rintro g s s' ⟨hframes, own, hstack, rfl⟩
    have hother : (own ++ g.other).length = s.stack.length := by
      rw [hstack, List.length_append, List.length_append, g.same]
    refine (call_untouched cx hrun _ _ parent isBlock hcalls.base_eq s hother).mono ?_
    rintro t t' ⟨htframes, htstack, ht⟩
    exact ⟨htframes.trans hframes, own, htstack.trans hstack, ht⟩
  whileTrue {test body} _ _ index := by
    intro g s s' h
    have hlength := h.length
    show Alike g.Apart (loop (run false) test body index s.stack.length n s)
      (loop (run true) test body index s'.stack.length n s')
    rw [hlength]
    refine g.congruence.loop (fun s s' h => .error _ h) (hrun test g) (hrun body g)
      (g.keeps_truncate ?_) index n s s' h
    obtain ⟨-, own, hstack, -⟩ := h
    rw [hstack, List.length_append]
    exact Nat.le_add_left ..

/-- **Code keeps to the operands of the current call**, however much of it runs. -/
theorem exec_ownOnly (cx : Setup) (n : Nat) (seg : Segment) :
    OwnOnly Ended (exec cx n seg) (exec cx n seg) := by
  have htick : ∀ i, Paired OwnOnly Unit fun _ => (Hooks.plain cx).before i :=
    fun _ g => g.keeps_tick cx
  rw [exec_eq_execBy]
  exact congruence_ownOnly.execBy (fun g s s' h => .error _ h) htick
    (fun n hrun => upholds_ownOnly cx n fun _ => hrun trivial) n trivial

/-- **Calls are isolated from their callers.** A call of a method or of a block, from any state,
with any body and however it ends, brings back the calls and the operands that were there. Meanwhile
they stand below its own operands, and the call does the same with any others in their place. -/
theorem calls_isolated (cx : Setup) (n : Nat) (s : State) (other : List Value)
    (hother : other.length = s.stack.length) :
    (∀ m self args block callSite, Alike (Untouched s other)
      (callMethod cx (exec cx n) m self args block callSite s)
      (callMethod cx (exec cx n) m self args block callSite { s with stack := other })) ∧
    (∀ c args callSite, Alike (Untouched s other)
      (callBlock cx (exec cx n) c args callSite s)
      (callBlock cx (exec cx n) c args callSite { s with stack := other })) ∧
    ∀ (f : Frame) (hbase : f.base = s.stack.length) (seg : Segment),
      Alike (Ground.Apart ⟨f :: s.frames, s.stack, other, hbase, hother⟩)
        (exec cx n seg { s with frames := f :: s.frames })
        (exec cx n seg { s with frames := f :: s.frames, stack := other }) := by
  refine ⟨fun m self args block callSite => ?_, fun c args callSite => ?_, fun f hbase seg => ?_⟩
  · exact call_untouched cx (exec_ownOnly cx n) _ _ _ _ (fun _ _ => rfl) s hother
  · exact call_untouched cx (exec_ownOnly cx n) _ _ _ _ (fun _ _ => rfl) s hother
  · exact exec_ownOnly cx n seg _ _ _ ⟨rfl, [], rfl, rfl⟩

/-- A method that takes one operand more than it has. -/
def grabbing : Method where
  name := "grab"
  body := ⟨0, [⟨.pushInt 5, .root⟩, ⟨.pop, .root⟩, ⟨.pop, .root⟩]⟩
  scope := .root
  selfOnly := false

/-- A state with two operands. -/
def holding : State where
  stack := [.int 1, .str "kept"]
  frames := [topFrame ⟨0⟩]

theorem calls_isolated_grabbing :
    ([.nil, .nil] : List Value).length = holding.stack.length ∧
    let cx : Setup := ⟨{}, .initial⟩
    ((callMethod cx (exec cx 4) grabbing .main [] none 7 holding) matches
      .error (.fault (.malformed ⟨2, .outOfStack, _⟩)) _) ∧
    Alike (Untouched holding [.nil, .nil])
      (callMethod cx (exec cx 4) grabbing .main [] none 7 holding)
      (callMethod cx (exec cx 4) grabbing .main [] none 7
        { holding with stack := [.nil, .nil] }) :=
  ⟨rfl, by decide +kernel, (calls_isolated _ 4 holding [.nil, .nil] rfl).1 grabbing .main [] none 7⟩

end StackCode.Machine
