import StackCode.Proofs.Ensures
import StackCode.Proofs.Rewriting

/-!
# Running rewritten code

Code of which some windows were replaced runs beside the code from which it was made. The two runs
are at different indices, and the bodies that their methods and captured blocks hold differ
likewise; `Rewriting.Like` says that nothing else in their states does.

`Rewriting.Follows calls m m' R` says that from such states, in which `calls` are the active calls,
`m'` does what `m` does, with results that are related by `R` and with the same calls active again.
It is kept by sequencing, and every operation of the machine that does not run code follows itself,
whatever indices it is given.
-/

namespace StackCode

/-! ## Code with windows replaced -/

/-- The second code is the first one with some windows replaced by a rule. -/
inductive Rewritten (rule : List Instruction → List Instruction → Prop) :
    List Instruction → List Instruction → Prop
  | nil : Rewritten rule [] []
  | keep {c c' : List Instruction} (i : Instruction) (h : Rewritten rule c c') :
      Rewritten rule (i :: c) (i :: c')
  | replace {old new c c' : List Instruction} (hr : rule old new) (h : Rewritten rule c c') :
      Rewritten rule (old ++ c) (new ++ c')

/-- A rule that leaves blocks and their marks alone. -/
def PlainRule (rule : List Instruction → List Instruction → Prop) : Prop :=
  ∀ old new, rule old new → ∀ i ∈ old ++ new, i.op.effect?.isSome = true

variable {rule : List Instruction → List Instruction → Prop} {a a' b b' c c' : List Instruction}

theorem rewritten_refl (c : List Instruction) : Rewritten rule c c := by
  induction c with
  | nil => exact .nil
  | cons i c ih => exact .keep i ih

/-- Windows may be replaced on both sides of a cut. -/
theorem Rewritten.append (ha : Rewritten rule a a') (hb : Rewritten rule b b') :
    Rewritten rule (a ++ b) (a' ++ b') := by
  induction ha with
  | nil => exact hb
  | keep i _ ih => exact .keep i ih
  | replace hr _ ih =>
    rw [List.append_assoc, List.append_assoc]
    exact .replace hr ih

theorem rewritten_of_rule (hr : rule a a') : Rewritten rule a a' := by
  simpa using Rewritten.replace hr .nil

/-- One change is a window replaced. -/
theorem Contracts.rewritten (h : Contracts rule c c') : Rewritten rule c c' := by
  obtain ⟨pre, post, hr⟩ := h
  exact (rewritten_refl pre).append (.replace hr (rewritten_refl post))

namespace Segment

variable {sought : Terminator} {label : Option BlockLabel}

/-- What the search for a mark does at an instruction does not depend on where it stands. -/
theorem splitBlock_cases (sought : Terminator) (label : Option BlockLabel) (depth : Nat)
    (i : Instruction) :
    (∀ index rest acc,
      splitBlock sought label index depth (i :: rest) acc = .ok (acc.reverse, index, rest)) ∨
    (∃ depth', ∀ index rest acc, splitBlock sought label index depth (i :: rest) acc =
      splitBlock sought label (index + 1) depth' rest (i :: acc)) ∨
    (∀ index rest acc, ∃ e, splitBlock sought label index depth (i :: rest) acc = .error e) := by
  by_cases hmark : depth = 0 ∧ i.op.terminator? = some sought
  · obtain ⟨rfl, ht⟩ := hmark
    cases label with
    | none => exact .inl fun _ _ _ => splitBlock_found ht fun _ h => nomatch h
    | some l =>
      by_cases hl : i.op.label? = some l
      · exact .inl fun _ _ _ => splitBlock_found ht fun _ h => by cases h; exact hl
      · exact .inr <| .inr fun _ _ _ => by simp [splitBlock, ht, hl]
  cases ho : i.op.opens? with
  | some l => exact .inr <| .inl ⟨depth + 1, fun _ _ _ => splitBlock_open ho⟩
  | none =>
    cases hl : i.op.label? with
    | none =>
      refine .inr <| .inl ⟨depth, fun _ _ _ => ?_⟩
      simp [splitBlock, hmark, ho, hl]
    | some l =>
      cases depth with
      | zero =>
        have ht : i.op.terminator? ≠ some sought := fun h => hmark ⟨rfl, h⟩
        exact .inr <| .inr fun _ _ _ => by simp [splitBlock, ht, ho, hl]
      | succ depth =>
        refine .inr <| .inl ⟨depth, fun _ _ _ => ?_⟩
        simp [splitBlock, ho, hl]

/-- The search for the end of a block goes over instructions that are not marks. -/
theorem splitBlock_plain {window : List Instruction}
    (hw : ∀ i ∈ window, i.op.effect?.isSome = true) (index depth : Nat)
    (rest acc : List Instruction) :
    splitBlock sought label index depth (window ++ rest) acc =
      splitBlock sought label (index + window.length) depth rest (window.reverse ++ acc) := by
  induction window generalizing index acc with
  | nil => rfl
  | cons i window ih =>
    obtain ⟨e, he⟩ := Option.isSome_iff_exists.mp (hw i (by simp))
    rw [List.cons_append, splitBlock_pass (terminator?_of_effect he) (opens?_of_effect he),
      ih fun j hj => hw j (by simp [hj])]
    simp [Nat.add_assoc, Nat.add_comm 1]

end Segment

/-- Two results of the search for a mark: the same parts, rewritten, or no mark. -/
inductive CutAlike (rule : List Instruction → List Instruction → Prop) :
    Except Malformed (List Instruction × Nat × List Instruction) →
      Except Malformed (List Instruction × Nat × List Instruction) → Prop
  | ok {body body' rest rest' : List Instruction} (mark mark' : Nat)
      (hbody : Rewritten rule body body') (hrest : Rewritten rule rest rest') :
      CutAlike rule (.ok (body, mark, rest)) (.ok (body', mark', rest'))
  | error (e e' : Malformed) : CutAlike rule (.error e) (.error e')

open Segment in
/-- **Blocks are found in rewritten code where they were**, and hold the rewritten bodies. -/
theorem Rewritten.splitBlock (hrule : PlainRule rule) (h : Rewritten rule c c')
    (sought : Terminator) (label : Option BlockLabel) :
    ∀ (index index' depth : Nat) (acc acc' : List Instruction),
      Rewritten rule acc.reverse acc'.reverse →
      CutAlike rule (splitBlock sought label index depth c acc)
        (splitBlock sought label index' depth c' acc') := by
  induction h with
  | nil => exact fun _ _ _ _ _ _ => .error _ _
  | @keep rest rest' i hrest ih =>
    intro index index' depth acc acc' hacc
    rcases splitBlock_cases sought label depth i with h | ⟨depth', h⟩ | h
    · rw [h, h]
      exact .ok _ _ hacc hrest
    · rw [h, h]
      refine ih _ _ _ _ _ ?_
      rw [List.reverse_cons, List.reverse_cons]
      exact hacc.append (rewritten_refl [i])
    · obtain ⟨e, he⟩ := h index rest acc
      obtain ⟨e', he'⟩ := h index' rest' acc'
      rw [he, he']
      exact .error e e'
  | @replace old new rest rest' hr hrest ih =>
    intro index index' depth acc acc' hacc
    have hplain := hrule old new hr
    rw [splitBlock_plain fun i hi => hplain i (List.mem_append_left _ hi),
      splitBlock_plain fun i hi => hplain i (List.mem_append_right _ hi)]
    -- the window is passed as a whole, and is replaced among what was passed
    refine ih _ _ _ _ _ ?_
    rw [List.reverse_append, List.reverse_append, List.reverse_reverse, List.reverse_reverse]
    exact hacc.append (rewritten_of_rule hr)

/-! ## What is compared -/

/-- The exception without the places of the calls that it left. -/
def Raised.unplaced (e : Raised) : Raised :=
  { e with trace := e.trace.map fun call => { call with callSite := 0 } }

namespace Machine

/-- The call without the place where it was made. -/
def Frame.unplaced (f : Frame) : Frame := { f with callSite := 0 }

/-- The stop without the indices that it mentions. Of malformed code only that it is malformed
remains. -/
def Stop.unplaced : Stop → Stop
  | .fault (.raised e) => .fault (.raised e.unplaced)
  | .fault (.malformed _) => .fault (.malformed ⟨0, .outOfStack, none⟩)
  | other => other

/-- Leaving a call adds a line to a backtrace, wherever the call was made. -/
theorem Stop.unplaced_leave (e : Stop) (f : Frame) :
    (e.leave f).unplaced = e.unplaced.leave f.unplaced := by
  cases e with
  | outOfFuel => rfl
  | fault e =>
    cases e with
    | raised e => simp [Stop.leave, Stop.unplaced, Raised.unplaced, Raised.leave, Frame.unplaced]
    | _ => rfl

/-- A rewriting of code, and the stops of the original code that it need not keep. -/
structure Rewriting where
  rule : List Instruction → List Instruction → Prop
  plain : PlainRule rule
  exempt : Stop → Prop
  exempt_fuel : exempt .outOfFuel
  exempt_leave : ∀ {e : Stop}, exempt e → ∀ f : Frame, exempt (e.leave f)
  exempt_unplaced : ∀ {e : Stop}, exempt e.unplaced ↔ exempt e

/-- What two runs that were given up have in common: the active calls and the output. -/
structure SameTrail (s s' : State) : Prop where
  frames : s'.frames.map Frame.unplaced = s.frames.map Frame.unplaced
  output : s'.output = s.output

/-- Both runs are equally deep in calls. -/
theorem SameTrail.length_frames {s s' : State} (h : SameTrail s s') :
    s'.frames.length = s.frames.length := by
  simpa using congrArg List.length h.frames

/-- Two calls that differ in nothing but their site. -/
theorem Frame.exists_of_unplaced {f f' : Frame} (h : f'.unplaced = f.unplaced) :
    ∃ callSite, f' = { f with callSite } := by
  refine ⟨f'.callSite, ?_⟩
  cases f
  cases f'
  simp_all [Frame.unplaced]

/-- There is no call in either state, or the innermost calls differ in their places only. -/
theorem SameTrail.cases_frames {s s' : State} (h : SameTrail s s') :
    (s.frames = [] ∧ s'.frames = []) ∨
    ∃ (f : Frame) (callSite : Nat) (rest rest' : List Frame), s.frames = f :: rest ∧
      s'.frames = { f with callSite } :: rest' ∧
      rest'.map Frame.unplaced = rest.map Frame.unplaced := by
  have hframes := h.frames
  cases hf : s.frames with
  | nil =>
    rw [hf, List.map_nil, List.map_eq_nil_iff] at hframes
    exact .inl ⟨rfl, hframes⟩
  | cons f rest =>
    rw [hf, List.map_cons] at hframes
    obtain ⟨f', rest', heq, hplace, hrest⟩ := List.map_eq_cons_iff.mp hframes
    obtain ⟨callSite, rfl⟩ := Frame.exists_of_unplaced hplace
    exact .inr ⟨f, callSite, rest, rest', rfl, heq, hrest⟩

theorem SameTrail.base {s s' : State} (h : SameTrail s s') : s'.base = s.base := by
  unfold State.base
  rcases h.cases_frames with ⟨hf, hf'⟩ | ⟨f, callSite, rest, rest', hf, hf', -⟩
  · rw [hf, hf']
  · rw [hf, hf']

/-! ## Active calls -/

/-- The active calls are `calls`, and the operands of each lie above those of the call around it. -/
structure Stacked (calls frames : List Frame) (height : Nat) : Prop where
  frames_eq : frames = calls
  bases : calls.Pairwise fun inner outer => outer.base ≤ inner.base
  grounded : floorOf calls ≤ height

namespace Stacked

variable {calls frames : List Frame} {height : Nat} {f : Frame}

/-- A call whose operands are those to come. -/
theorem enter (h : Stacked calls frames height) (hf : f.base = height) :
    Stacked (f :: calls) (f :: frames) height := by
  refine ⟨by rw [h.frames_eq], List.pairwise_cons.mpr ⟨fun g hg => ?_, h.bases⟩, Nat.le_of_eq hf⟩
  rw [hf]
  refine Nat.le_trans ?_ h.grounded
  -- the innermost call has the highest base
  cases calls with
  | nil => cases hg
  | cons g' rest =>
    rcases List.mem_cons.mp hg with rfl | hg
    · exact Nat.le_refl _
    · exact (List.pairwise_cons.mp h.bases).1 g hg

theorem floorOf_le (h : Stacked (f :: calls) frames height) : floorOf calls ≤ f.base := by
  cases calls with
  | nil => exact Nat.zero_le _
  | cons g rest => exact (List.pairwise_cons.mp h.bases).1 g (List.mem_cons_self ..)

/-- The innermost call is over. -/
theorem leave (h : Stacked (f :: calls) frames height) : Stacked calls calls height :=
  ⟨rfl, (List.pairwise_cons.mp h.bases).2, Nat.le_trans h.floorOf_le h.grounded⟩

end Stacked

namespace Rewriting

/-- The second method is the first one with its body rewritten. -/
structure LikeMethod (P : Rewriting) (m m' : Method) : Prop where
  body : Rewritten P.rule m.body.code m'.body.code
  name : m'.name = m.name
  scope : m'.scope = m.scope
  selfOnly : m'.selfOnly = m.selfOnly

/-- The second block is the first one with its body rewritten. -/
structure LikeClosure (P : Rewriting) (c c' : Closure) : Prop where
  body : Rewritten P.rule c.body.code c'.body.code
  scope : c'.scope = c.scope
  env : c'.env = c.env
  self : c'.self = c.self
  block : c'.block = c.block
  home : c'.home = c.home

/-- The states of two runs, the second one of rewritten code, in which `calls` are active. The
instructions that they have counted are not compared. -/
structure Like (P : Rewriting) (calls : List Frame) (s s' : State) : Prop extends
    SameTrail s s' where
  stacked : Stacked calls s.frames s.stack.length
  stack : s'.stack = s.stack
  globals : s'.globals = s.globals
  visibility : s'.visibility = s.visibility
  envs : s'.envs = s.envs
  methods : ∀ name, Option.Rel P.LikeMethod (s.methods.get? name) (s'.methods.get? name)
  procCount : s'.procs.size = s.procs.size
  procs : ∀ id : Nat, Option.Rel P.LikeClosure s.procs[id]? s'.procs[id]?

/-- The outcomes of two computations: the second did what the first did, unless the first stopped in
a way that is exempt. -/
inductive Alike (P : Rewriting) (calls : List Frame) {α β : Type} (R : α → β → Prop) :
    EStateM.Result Stop State α → EStateM.Result Stop State β → Prop
  | ok {a : α} {b : β} {s s' : State} (hr : R a b) (hs : P.Like calls s s') :
      Alike P calls R (.ok a s) (.ok b s')
  | error {e e' : Stop} {s s' : State} (he : e'.unplaced = e.unplaced) (hs : SameTrail s s') :
      Alike P calls R (.error e s) (.error e' s')
  | exempt {e : Stop} {s : State} {r : EStateM.Result Stop State β} (he : P.exempt e) :
      Alike P calls R (.error e s) r

/-- From like states, the second computation does what the first one does. -/
def Follows (P : Rewriting) (calls : List Frame) {α β : Type} (m : Exec α) (m' : Exec β)
    (R : α → β → Prop) : Prop :=
  ∀ ⦃s s' : State⦄, P.Like calls s s' → P.Alike calls R (m s) (m' s')

variable {P : Rewriting} {calls : List Frame} {α β γ δ : Type} {R : α → β → Prop}
  {Q : γ → δ → Prop} {s s' : State} {m : Exec α} {m' : Exec β} {f : α → Exec γ} {f' : β → Exec δ}

/-! ## Sequencing -/

theorem follows_pure {a : α} {b : β} (h : R a b) : P.Follows calls (pure a) (pure b) R :=
  fun _ _ hs => .ok h hs

/-- **Sequencing.** What follows two steps follows them one by one. -/
theorem Follows.bind (h : P.Follows calls m m' R)
    (hf : ∀ a b, R a b → P.Follows calls (f a) (f' b) Q) :
    P.Follows calls (m >>= f) (m' >>= f') Q := by
  intro s s' hs
  show P.Alike calls Q (EStateM.bind m f s) (EStateM.bind m' f' s')
  have hm := h hs
  unfold EStateM.bind
  generalize m s = r, m' s' = r' at hm ⊢
  cases hm with
  | ok hr ht => exact hf _ _ hr ht
  | error he ht => exact .error he ht
  | exempt he => exact .exempt he

/-- The rule for a computation that gives both runs the same. -/
theorem Follows.andThen {m m' : Exec α} {f : α → Exec γ} {f' : α → Exec δ}
    (h : P.Follows calls m m' Eq) (hf : ∀ a, P.Follows calls (f a) (f' a) Q) :
    P.Follows calls (m >>= f) (m' >>= f') Q :=
  h.bind fun a _ hab => hab ▸ hf a

theorem follows_fail (f : Fault) : P.Follows calls (fail f : Exec α) (fail f : Exec β) R :=
  fun _ _ hs => .error rfl hs.toSameTrail

theorem follows_raise (e : Exception) : P.Follows calls (raise e : Exec α) (raise e : Exec β) R :=
  follows_fail _

/-- Both runs find the code malformed, each at its own index. -/
theorem follows_malformed (i i' : Nat) (cause cause' : Malformed.Cause) :
    P.Follows calls (malformed i cause : Exec α) (malformed i' cause' : Exec β) R :=
  fun _ _ hs => .error rfl hs.toSameTrail

/-- Each run sees its own state, and the two are alike. -/
theorem follows_get {f : State → Exec γ} {f' : State → Exec δ}
    (h : ∀ s s', P.Like calls s s' → P.Follows calls (f s) (f' s') Q) :
    P.Follows calls (get >>= f) (get >>= f') Q :=
  fun s s' hs => h s s' hs hs

theorem follows_modify {g g' : State → State}
    (h : ∀ s s', P.Like calls s s' → P.Like calls (g s) (g' s')) :
    P.Follows calls (modify g) (modify g') Eq :=
  fun s s' hs => .ok rfl (h s s' hs)

/-! ## Operands and the current call -/

/-- Both runs may be given other operands, as long as those of the callers stay. -/
theorem Like.withStack (h : P.Like calls s s') {stack : List Value}
    (hs : floorOf calls ≤ stack.length) : P.Like calls { s with stack } { s' with stack } :=
  { h with stacked := ⟨h.stacked.frames_eq, h.stacked.bases, hs⟩, stack := rfl }

/-- The base is that of the innermost active call. -/
theorem Like.base_eq_floorOf (h : P.Like calls s s') : s.base = floorOf calls := by
  rw [s.base_eq_floorOf, h.stacked.frames_eq]

theorem Like.withEnvs (h : P.Like calls s s') (envs : EnvStore) :
    P.Like calls { s with envs } { s' with envs } :=
  { h with envs := rfl }

theorem Like.pushed (h : P.Like calls s s') (v : Value) :
    P.Like calls { s with stack := v :: s.stack } { s' with stack := v :: s'.stack } := by
  rw [h.stack]
  have hfloor : floorOf calls ≤ (v :: s.stack).length := Nat.le_succ_of_le h.stacked.grounded
  exact h.withStack hfloor

theorem follows_push (v : Value) : P.Follows calls (push v) (push v) Eq :=
  follows_modify fun _ _ h => h.pushed v

/-- Popping does the same in both runs, at whatever indices. -/
theorem follows_pop (i i' : Nat) : P.Follows calls (pop i) (pop i') Eq := by
  intro s s' h
  unfold pop
  rw [h.stack, h.base]
  split
  case h_1 v rest hstack =>
    split
    case isTrue hlt =>
      rw [h.base_eq_floorOf, hstack] at hlt
      exact .ok rfl (h.withStack (Nat.le_of_lt_succ hlt))
    · exact follows_malformed _ _ _ _ h
  · exact follows_malformed _ _ _ _ h

theorem follows_peek (i i' : Nat) : P.Follows calls (peek i) (peek i') Eq := by
  intro s s' h
  unfold peek
  rw [h.stack, h.base]
  split
  · split
    · exact .ok rfl h
    · exact follows_malformed _ _ _ _ h
  · exact follows_malformed _ _ _ _ h

theorem follows_popN (n : UInt64) (i i' : Nat) : P.Follows calls (popN n i) (popN n i') Eq := by
  intro s s' h
  unfold popN
  rw [h.stack, h.base]
  split
  · unfold shortage
    split
    · exact follows_malformed _ _ _ _ h
    · exact follows_fail _ h
  · refine .ok rfl (h.withStack ?_)
    have := h.base_eq_floorOf
    rw [List.length_drop]
    omega

/-- Both stacks are cut down to one height, no lower than the current call begins. -/
theorem Like.truncate (h : P.Like calls s s') {height : Nat} (hh : floorOf calls ≤ height) :
    P.Like calls (s.truncate height) (s'.truncate height) := by
  unfold State.truncate
  rw [h.stack]
  refine h.withStack ?_
  have := h.stacked.grounded
  rw [List.length_drop]
  omega

theorem follows_truncate {height : Nat} (hh : floorOf calls ≤ height) :
    P.Follows calls (truncate height) (truncate height) Eq :=
  follows_modify fun _ _ h => h.truncate hh

/-- The current calls differ in the index at which they were made, at most. -/
theorem follows_frame (i i' : Nat) :
    P.Follows calls (frame i) (frame i') fun f f' => ∃ callSite, f' = { f with callSite } := by
  refine follows_get fun s s' h => ?_
  rcases h.cases_frames with ⟨hf, hf'⟩ | ⟨f, callSite, rest, rest', hf, hf', -⟩
  · rw [hf, hf']
    exact follows_malformed _ _ _ _
  · rw [hf, hf']
    exact follows_pure ⟨callSite, rfl⟩

/-! ## Variables -/

/-- Both runs make the same environment. -/
theorem follows_newEnv (cx : Setup) (scope : ScopeId) (parent : Option EnvId) :
    P.Follows calls (newEnv cx scope parent) (newEnv cx scope parent) Eq := by
  unfold newEnv
  split
  · refine follows_get fun s s' h => ?_
    rw [h.envs]
    refine (follows_modify fun t t' ht => ?_).andThen fun _ => follows_pure rfl
    rw [ht.envs]
    exact ht.withEnvs _
  · exact follows_fail _

theorem follows_liftLookup (r : Except UnknownVariable α) :
    P.Follows calls (liftLookup r) (liftLookup r) Eq := by
  cases r with
  | ok a => exact follows_pure rfl
  | error e => exact follows_fail _

/-- A check of a lookup finds the same in both runs. -/
theorem follows_checkLookup (cx : Setup) (env : EnvId) (scope : ScopeId) (name : String)
    (localOnly : Bool) (i i' : Nat) :
    P.Follows calls (checkLookup cx env scope name localOnly i)
      (checkLookup cx env scope name localOnly i') Eq := by
  unfold checkLookup
  split
  · split
    · exact follows_fail _
    · refine (follows_liftLookup _).andThen fun expected => follows_get fun s s' h => ?_
      rw [h.envs]
      refine (follows_liftLookup _).andThen fun ⟨owner, depth⟩ => ?_
      dsimp only
      split
      · exact follows_malformed _ _ _ _
      · exact follows_pure rfl
  · exact follows_pure rfl

/-! ## Output -/

theorem follows_write (text : String) : P.Follows calls (write text) (write text) Eq := by
  intro s s' h
  have hwith : ∀ output, P.Like calls { s with output } { s' with output } := fun _ =>
    { h with output := rfl }
  unfold write
  rw [h.output]
  split
  · exact .ok rfl (hwith _)
  · dsimp only
    split
    · exact .ok rfl (hwith _)
    · exact follows_fail _ (hwith _)

theorem follows_writeAll (line : Value → String) (args : List Value) :
    P.Follows calls (args.forM fun v => write (line v)) (args.forM fun v => write (line v)) Eq := by
  induction args with
  | nil => exact follows_pure rfl
  | cons v rest ih => exact (follows_write _).andThen fun _ => ih

/-- Both runs write the same. -/
theorem follows_writeLines (args : List Value) :
    P.Follows calls (writeLines args) (writeLines args) Eq := by
  unfold writeLines
  split
  · exact follows_write _
  · exact follows_writeAll _ args

/-! ## Blocks -/

/-- Blocks are cut off at the same mark, so that their bodies and what is behind them are alike. -/
theorem follows_cut {seg seg' : Segment} (h : Rewritten P.rule seg.code seg'.code)
    (sought : Terminator) (label : Option BlockLabel) :
    P.Follows calls (cut seg sought label) (cut seg' sought label) fun parts parts' =>
      Rewritten P.rule parts.1.code parts'.1.code ∧
        Rewritten P.rule parts.2.code parts'.2.code := by
  have hcut := h.splitBlock P.plain sought label seg.start seg'.start 0 [] [] .nil
  unfold cut Segment.takeBlock
  generalize Segment.splitBlock sought label seg.start 0 seg.code [] = r,
    Segment.splitBlock sought label seg'.start 0 seg'.code [] = r' at hcut ⊢
  cases hcut with
  | ok mark mark' hbody hrest => exact follows_pure ⟨hbody, hrest⟩
  | error e e' => exact fun _ _ hs => .error rfl hs.toSameTrail

end Rewriting

end Machine

end StackCode
