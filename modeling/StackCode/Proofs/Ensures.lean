import StackCode.Proofs.Hooks

/-!
# Reasoning about computations of the machine

`Meets E m Q s` says that `m`, started in `s`, ends with a result and a state that satisfy `Q`, or
stops in a way that satisfies `E`. For `Ensures m Q s` it may stop in every way that is no fault of
the code: with an exception of the program, at a limit, or for want of fuel.

`Together m m' Q s` says moreover that `m'` does the same as `m` from `s`. It compares two machines
that differ in what they check on the way.
-/

namespace StackCode.Machine

variable {α β : Type} {m m' : Exec α} {f f' : α → Exec β} {Q R : α → State → Prop} {s : State}

/-! ## Stops -/

/-- A stop that well formed code can lead to. -/
def Stop.Orderly : Stop → Prop
  | .fault (.malformed _) | .fault (.unknownVariable _) => False
  | .fault (.missingScope _) | .fault (.countOverflow _) => False
  | _ => True

/-- The call that a stop leaves is no part of its cause. -/
theorem Stop.Orderly.leave {e : Stop} (h : e.Orderly) (f : Frame) : (e.leave f).Orderly := by
  cases e with
  | outOfFuel => exact h
  | fault e => cases e <;> exact h

/-! ## Outcomes -/

/-- What holds when the computation has ended: `Q` of its result and of the state, or `E` of the
stop. -/
def Meets (E : Stop → Prop) (m : Exec α) (Q : α → State → Prop) (s : State) : Prop :=
  match m s with
  | .ok a s' => Q a s'
  | .error e _ => E e

section

variable {E : Stop → Prop}

/-- A computation that is known to end meets what holds of its end. -/
theorem meets_of_eq {a : α} {s' : State} (h : m s = .ok a s') (hq : Q a s') : Meets E m Q s := by
  unfold Meets
  rw [h]
  exact hq

theorem meets_of_error {e : Stop} {s' : State} (h : m s = .error e s') (he : E e) :
    Meets E m Q s := by
  unfold Meets
  rw [h]
  exact he

/-- What is known of the computation that is left. -/
theorem Meets.of_eq {s' : State} (hm : Meets E m' Q s') (h : m s = m' s') : Meets E m Q s := by
  unfold Meets
  rw [h]
  exact hm

theorem meets_pure {a : α} (h : Q a s) : Meets E (pure a) Q s := h

theorem Meets.mono (h : Meets E m R s) (hq : ∀ a s', R a s' → Q a s') : Meets E m Q s := by
  unfold Meets at *
  split at h
  · exact hq _ _ h
  · exact h

/-- What holds between two computations is all that the second may use. -/
theorem Meets.bind {Q : β → State → Prop} (h : Meets E m R s)
    (hf : ∀ a s', R a s' → Meets E (f a) Q s') : Meets E (m >>= f) Q s := by
  show match EStateM.bind m f s with
    | .ok a s' => Q a s'
    | .error e _ => E e
  unfold Meets at h
  unfold EStateM.bind
  split at h
  · rename_i heq
    rw [heq]
    exact hf _ _ h
  · rename_i heq
    rw [heq]
    exact h

theorem Meets.map {g : α → β} (h : Meets E m Q s) :
    Meets E (g <$> m) (fun b s' => ∃ a, b = g a ∧ Q a s') s := by
  show match EStateM.map g m s with
    | .ok b s' => ∃ a, b = g a ∧ Q a s'
    | .error e _ => E e
  unfold Meets at h
  unfold EStateM.map
  split at h
  · rename_i heq
    rw [heq]
    exact ⟨_, rfl, h⟩
  · rename_i heq
    rw [heq]
    exact h

end

/-- What holds when the computation has ended, and no fault of the code stopped it. -/
abbrev Ensures (m : Exec α) (Q : α → State → Prop) (s : State) : Prop := Meets Stop.Orderly m Q s

/-- An exception of the program is no fault of the code. -/
theorem ensures_raise (e : Exception) : Ensures (raise e : Exec α) Q s := trivial

/-! ## Two machines -/

/-- Both computations do the same, and the result satisfies `Q`. -/
def Together (m m' : Exec α) (Q : α → State → Prop) (s : State) : Prop := m' s = m s ∧ Ensures m Q s

theorem Meets.together (h : Ensures m Q s) : Together m m Q s := ⟨rfl, h⟩

theorem together_pure {a : α} (h : Q a s) : Together (pure a) (pure a) Q s := ⟨rfl, h⟩

theorem together_raise (e : Exception) : Together (raise e : Exec α) (raise e) Q s :=
  (ensures_raise e).together

theorem Together.mono (h : Together m m' R s) (hq : ∀ a s', R a s' → Q a s') :
    Together m m' Q s :=
  ⟨h.1, h.2.mono hq⟩

/-- Two machines that do the same up to some state, and the same from there on. -/
theorem Together.bind {Q : β → State → Prop} (h : Together m m' R s)
    (hf : ∀ a s', R a s' → Together (f a) (f' a) Q s') : Together (m >>= f) (m' >>= f') Q s := by
  obtain ⟨heq, h⟩ := h
  refine ⟨?_, h.bind fun a s' hr => (hf a s' hr).2⟩
  show EStateM.bind m' f' s = EStateM.bind m f s
  unfold EStateM.bind
  rw [heq]
  unfold Ensures Meets at h
  split at h
  · rename_i hm
    rw [hm]
    exact (hf _ _ h).1
  · rename_i hm
    rw [hm]

/-- A computation that both do, and what follows it. -/
theorem Meets.andThen {Q : β → State → Prop} (h : Ensures m R s)
    (hf : ∀ a s', R a s' → Together (f a) (f' a) Q s') : Together (m >>= f) (m >>= f') Q s :=
  h.together.bind hf

/-- A step that is known to succeed. -/
theorem together_of_eq {Q : β → State → Prop} {a : α} {s' : State} (h : m s = .ok a s')
    (h' : m' s = .ok a s') (hf : Together (f a) (f' a) Q s') :
    Together (m >>= f) (m' >>= f') Q s :=
  Together.bind (R := fun b t => b = a ∧ t = s') ⟨h'.trans h.symm, meets_of_eq h ⟨rfl, rfl⟩⟩
    fun _ _ ⟨hb, ht⟩ => hb ▸ ht ▸ hf

theorem together_get {f f' : State → Exec β} {Q : β → State → Prop}
    (h : Together (f s) (f' s) Q s) : Together (get >>= f) (get >>= f') Q s :=
  together_of_eq rfl rfl h

theorem together_modify {g : State → State} {f f' : Unit → Exec β} {Q : β → State → Prop}
    (h : Together (f ()) (f' ()) Q (g s)) : Together (modify g >>= f) (modify g >>= f') Q s :=
  together_of_eq rfl rfl h

/-! ## Operands -/

/-- The height below which the innermost of the calls may not reach. -/
def floorOf : List Frame → Nat
  | [] => 0
  | f :: _ => f.base

/-- The base of the innermost call, or 0 where there is none. -/
theorem State.base_eq_floorOf (s : State) : s.base = floorOf s.frames := by
  unfold State.base
  cases s.frames <;> rfl

variable {below : List Value}

theorem frame_of_frames {f : Frame} {outer : List Frame} (hs : s.frames = f :: outer)
    (index : Nat) : frame index s = .ok f s := by
  obtain ⟨_⟩ := s
  obtain rfl : _ = f :: outer := hs
  rfl

/-- An operand above the base is popped. -/
theorem pop_of_stack {v : Value} (hs : s.stack = v :: below) (hbase : s.base ≤ below.length)
    (index : Nat) : pop index s = .ok v { s with stack := below } := by
  unfold pop
  rw [hs]
  exact if_pos (Nat.lt_succ_of_le hbase)

/-- Arguments are taken together, in the order in which they were pushed. -/
theorem popN_of_stack {args : List Value} {n : UInt64} (hs : s.stack = args.reverse ++ below)
    (hbase : s.base ≤ below.length) (hn : args.length = n.toNat) (index : Nat) :
    popN n index s = .ok args { s with stack := below } := by
  have hlen : s.stack.length = n.toNat + below.length := by
    rw [hs, List.length_append, List.length_reverse, hn]
  have hrev : args.reverse.length = n.toNat := by rw [List.length_reverse, hn]
  unfold popN
  rw [if_neg (by omega), hs, List.take_left' hrev, List.drop_left' hrev, List.reverse_reverse]

/-! ## Output -/

section

variable {E : Stop → Prop} {I : State → Prop}

/-- What does not depend on the output is kept while there is room for it. -/
theorem meets_write (hI : ∀ s out, I s → I { s with output := out }) (he : E (.fault .outputFull))
    (hs : I s) (text : String) : Meets E (write text) (fun _ => I) s := by
  unfold Meets write
  cases s.output.room with
  | none => exact hI s _ hs
  | some room =>
    by_cases hfits : text.toUTF8.data.size ≤ room
    · simp only [hfits, if_true]
      exact hI s _ hs
    · simp only [hfits, if_false]
      exact he

theorem meets_writeAll (hI : ∀ s out, I s → I { s with output := out })
    (he : E (.fault .outputFull)) (hs : I s) (line : Value → String) (args : List Value) :
    Meets E (args.forM fun v => write (line v)) (fun _ => I) s := by
  induction args generalizing s with
  | nil => exact meets_pure hs
  | cons v rest ih => exact (meets_write hI he hs _).bind fun _ _ hs => ih hs

/-- A property that does not look at the output is kept by what writes. -/
theorem meets_writeLines (hI : ∀ s out, I s → I { s with output := out })
    (he : E (.fault .outputFull)) (hs : I s) (args : List Value) :
    Meets E (writeLines args) (fun _ => I) s := by
  unfold writeLines
  split
  · exact meets_write hI he hs _
  · exact meets_writeAll hI he hs _ args

/-! ## Calls -/

/-- The end of a call, when its body has ended. -/
theorem meets_leaveCall {m : Exec Completion} {P Q : Completion → State → Prop}
    (hE : ∀ e f, E e → E (e.leave f)) (hm : Meets E m P s)
    (hq : ∀ a s', P a s' → Q a s'.leaveCall) : Meets E (fun s => leaveCall (m s)) Q s := by
  unfold Meets at hm ⊢
  split at hm
  · rename_i heq
    simp only [heq, leaveCall]
    exact hq _ _ hm
  · rename_i e s' heq
    simp only [heq, leaveCall]
    cases s'.frames.head? with
    | none => exact hm
    | some f => exact hE e f hm

end

/-! ## Messages

Sending a message is to find out to whom, and then to dispatch it. -/

/-- Sends a message to `target`; `receiver` is what stands before the message in the text. -/
def dispatch (cx : Setup) (run : Segment → Exec Ended) (receiver : Option Value) (message : String)
    (args : List Value) (block : Option ProcId) (index : Nat) (target : Value) :
    Exec Completion :=
  dispatchBy leaveCall cx run receiver message args block index target

/-- Built-in methods come before those of the program, and the two that write after them. -/
theorem dispatch_eq (cx : Setup) (run : Segment → Exec Ended) (receiver : Option Value)
    (message : String) (args : List Value) (block : Option ProcId) (index : Nat) (target : Value) :
    dispatch cx run receiver message args block index target =
      (match Builtin.call? target message args with
      | some (.ok v) => return .value v
      | some (.error e) => raise e
      | none => do
        match (← get).methods.get? message with
        | some m =>
          if m.selfOnly && receiver.isSome then raise (.privateMethod message target)
          else callMethod cx run m target args block index
        | none =>
          match receiver, message with
          | none, "puts" => writeLines args; return .value .nil
          | none, "print" => args.forM fun v => write v.text; return .value .nil
          | _, _ => raise (.noMethod message target)) := rfl

/-- A message without a receiver goes to `self`. -/
theorem send_eq (cx : Setup) (run : Segment → Exec Ended) (receiver : Option Value)
    (message : String) (args : List Value) (block : Option ProcId) (index : Nat) :
    send cx run receiver message args block index = (match receiver with
      | some v => dispatch cx run receiver message args block index v
      | none => do dispatch cx run receiver message args block index (← frame index).self) := by
  cases receiver <;> rfl

end StackCode.Machine
