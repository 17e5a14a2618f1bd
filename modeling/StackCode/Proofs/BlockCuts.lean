import StackCode.Proofs.Heights

/-!
# Where blocks are cut

A search for a mark passes code as long as blocks are open, and no further than the end of the block
that it began in. So it comes to a halt at the first instruction that stands outside the blocks
opened on the way and is the mark, or an end (`Stream.Halts`). Whether the search succeeds is
decided there: by the mark, and by the label when one is expected.

Main result: **`Stream.fetch_cuts_at_first_halt`**. It speaks of positions and counts them anew from
the cursor; the search itself keeps the number of open blocks (`splitBlock_step`).
-/

namespace StackCode

/-- The number of blocks that the code opens, less the number of those that it ends. -/
def balance (code : List Instruction) : Int :=
  code.countP (·.op.opens?.isSome) - code.countP (·.op.label?.isSome)

/-- Whether the instruction is the mark that is sought, with the label that is expected. -/
def Instruction.IsMark (sought : Terminator) (label : Option BlockLabel) (i : Instruction) : Prop :=
  i.op.terminator? = some sought ∧ ∀ expected, label = some expected → i.op.label? = some expected

variable {sought : Terminator} {label : Option BlockLabel} {i x : Instruction}
  {code rest : List Instruction} {depth j : Nat}

theorem balance_cons (i : Instruction) (code : List Instruction) :
    balance (i :: code) = balance [i] + balance code := by
  simp only [balance, List.countP_cons, List.countP_nil]
  omega

/-! ## Halts in a list -/

/-- A search that begins with `depth` open blocks halts at position `j`, where `i` stands, unless it
has halted before. -/
def HaltsIn (sought : Terminator) (depth : Int) (code : List Instruction) (j : Nat)
    (i : Instruction) : Prop :=
  code[j]? = some i ∧ depth + balance (code.take j) = 0 ∧
    (i.op.terminator? = some sought ∨ i.op.label?.isSome)

/-- The position is the first at which the search halts. -/
def HaltsFirst (sought : Terminator) (depth : Int) (code : List Instruction) (j : Nat)
    (i : Instruction) : Prop :=
  HaltsIn sought depth code j i ∧ ∀ k < j, ∀ x, ¬ HaltsIn sought depth code k x

theorem haltsIn_zero {depth : Int} : HaltsIn sought depth (i :: rest) 0 x ↔
    i = x ∧ depth = 0 ∧ (i.op.terminator? = some sought ∨ i.op.label?.isSome) := by
  constructor
  · rintro ⟨hi, hdepth, hop⟩
    obtain rfl := Option.some.inj hi
    exact ⟨rfl, by simpa [balance] using hdepth, hop⟩
  · rintro ⟨rfl, rfl, hop⟩
    exact ⟨rfl, by simp [balance], hop⟩

theorem haltsIn_succ {depth : Int} : HaltsIn sought depth (i :: rest) (j + 1) x ↔
    HaltsIn sought (depth + balance [i]) rest j x := by
  unfold HaltsIn
  rw [List.take_succ_cons, balance_cons, Int.add_assoc]
  rfl

/-- Behind an instruction at which the search does not halt, the search goes on. -/
theorem haltsFirst_succ {depth : Int} (hno : ∀ x, ¬ HaltsIn sought depth (i :: rest) 0 x) :
    HaltsFirst sought depth (i :: rest) (j + 1) x ↔
      HaltsFirst sought (depth + balance [i]) rest j x := by
  unfold HaltsFirst
  rw [haltsIn_succ]
  constructor
  · rintro ⟨hj, hfirst⟩
    refine ⟨hj, fun k hk y hy => hfirst (k + 1) (by omega) y (haltsIn_succ.mpr hy)⟩
  · rintro ⟨hj, hfirst⟩
    refine ⟨hj, fun k hk y hy => ?_⟩
    cases k with
    | zero => exact hno y hy
    | succ k => exact hfirst k (by omega) y (haltsIn_succ.mp hy)

/-- A search that halts at all halts somewhere first. -/
theorem HaltsIn.exists_first {depth : Int} (h : HaltsIn sought depth code j x) :
    ∃ k i, HaltsFirst sought depth code k i := by
  induction j using Nat.strongRecOn generalizing x with
  | ind j ih =>
    by_cases hearlier : ∃ k < j, ∃ y, HaltsIn sought depth code k y
    · obtain ⟨k, hk, y, hy⟩ := hearlier
      exact ih k hk hy
    · exact ⟨j, x, h, fun k hk y hy => hearlier ⟨k, hk, y, hy⟩⟩

/-! ## The search -/

namespace Segment

/-- **Where the search does not halt it passes one instruction**, and keeps count of the blocks. -/
theorem splitBlock_step (hno : ∀ x, ¬ HaltsIn sought depth (i :: rest) 0 x) :
    ∃ after : Nat, (after : Int) = depth + balance [i] ∧ ∀ label index acc,
      splitBlock sought label index depth (i :: rest) acc =
        splitBlock sought label (index + 1) after rest (i :: acc) := by
  have hno : ¬ (depth = 0 ∧ (i.op.terminator? = some sought ∨ i.op.label?.isSome)) := by
    rintro ⟨hdepth, hop⟩
    exact hno i (haltsIn_zero.mpr ⟨rfl, by simp [hdepth], hop⟩)
  cases hl : i.op.label? with
  | some ended =>
    have hi := Op.eq_endBlock_of_label? hl
    cases depth with
    | zero => exact absurd ⟨rfl, .inr (by rw [hl]; rfl)⟩ hno
    | succ depth =>
      have hbalance : balance [i] = -1 := by simp [balance, hi, Op.opens?, Op.label?]
      exact ⟨depth, by omega, fun _ _ _ => splitBlock_close hi⟩
  | none =>
    cases ho : i.op.opens? with
    | some opened => exact ⟨depth + 1, by simp [balance, ho, hl], fun _ _ _ => splitBlock_open ho⟩
    | none =>
      have hseek : ¬ (depth = 0 ∧ i.op.terminator? = some sought) :=
        fun h => hno ⟨h.1, .inl h.2⟩
      exact ⟨depth, by simp [balance, ho, hl], fun _ _ _ => by simp [splitBlock, hseek, ho, hl]⟩

/-- **The search succeeds at the mark**: what stands before it is cut off. -/
theorem splitBlock_of_isMark (h : HaltsFirst sought depth code j i) (hm : i.IsMark sought label)
    (index : Nat) (acc : List Instruction) : splitBlock sought label index depth code acc =
      .ok (acc.reverse ++ code.take j, index + j, code.drop (j + 1)) := by
  induction code generalizing depth index acc j with
  | nil => cases h.1.1
  | cons first rest ih =>
    cases j with
    | zero =>
      obtain ⟨rfl, hdepth, -⟩ := haltsIn_zero.mp h.1
      obtain rfl : depth = 0 := by simpa using hdepth
      rw [splitBlock_found hm.1 hm.2]
      simp
    | succ j =>
      have hno : ∀ x, ¬ HaltsIn sought depth (first :: rest) 0 x := h.2 0 (Nat.succ_pos j)
      obtain ⟨after, hafter, hstep⟩ := splitBlock_step hno
      rw [haltsFirst_succ hno, ← hafter] at h
      rw [hstep, ih h]
      simp [Nat.add_comm, Nat.add_left_comm]

/-- **The search fails where it halts at anything else.** -/
theorem splitBlock_of_not_isMark (h : HaltsFirst sought depth code j i)
    (hm : ¬ i.IsMark sought label) (index : Nat) (acc : List Instruction) :
    ∃ cause, splitBlock sought label index depth code acc = .error ⟨index + j, cause, none⟩ := by
  induction code generalizing depth index acc j with
  | nil => cases h.1.1
  | cons first rest ih =>
    cases j with
    | zero =>
      obtain ⟨rfl, hdepth, hop⟩ := haltsIn_zero.mp h.1
      obtain rfl : depth = 0 := by simpa using hdepth
      by_cases ht : first.op.terminator? = some sought
      · -- the mark has another label than the one that is expected
        cases label with
        | none => exact absurd ⟨ht, by simp⟩ hm
        | some expected =>
          have hl : first.op.label? ≠ some expected := fun hl => hm ⟨ht, by simp [hl]⟩
          exact ⟨_, by simp [splitBlock, ht, hl]; rfl⟩
      · -- the end of the block around
        obtain ⟨ended, hl⟩ := Option.isSome_iff_exists.mp (hop.resolve_left ht)
        have ho : first.op.opens? = none := by
          rw [Op.eq_endBlock_of_label? hl]
          rfl
        exact ⟨_, by simp [splitBlock, ht, hl, ho]; rfl⟩
    | succ j =>
      have hno : ∀ x, ¬ HaltsIn sought depth (first :: rest) 0 x := h.2 0 (Nat.succ_pos j)
      obtain ⟨after, hafter, hstep⟩ := splitBlock_step hno
      rw [haltsFirst_succ hno, ← hafter] at h
      rw [hstep, Nat.add_comm j, ← Nat.add_assoc]
      exact ih h _ _

/-- **The search fails at the end of the code if it does not halt before.** -/
theorem splitBlock_of_not_halts (h : ∀ j i, ¬ HaltsIn sought depth code j i) (index : Nat)
    (acc : List Instruction) : splitBlock sought label index depth code acc =
      .error ⟨index + code.length, .missing sought, none⟩ := by
  induction code generalizing depth index acc with
  | nil => rfl
  | cons first rest ih =>
    obtain ⟨after, hafter, hstep⟩ := splitBlock_step (h 0)
    have hrest : ∀ j i, ¬ HaltsIn sought after rest j i := by
      intro j i hj
      rw [hafter] at hj
      exact h (j + 1) i (haltsIn_succ.mpr hj)
    rw [hstep, ih hrest, List.length_cons, Nat.add_assoc, Nat.add_comm 1]

end Segment

/-! ## Streams -/

namespace Stream

/-- A search from the cursor for the mark halts at position `j`, where `i` stands, unless it has
halted before: the blocks opened since the cursor are ended, and `i` is the mark or an end. -/
def Halts (s : Stream) (sought : Terminator) (j : Nat) (i : Instruction) : Prop :=
  s.cursor ≤ j ∧ s.segment.code[j]? = some i ∧
    balance ((s.segment.code.take j).drop s.cursor) = 0 ∧
    (i.op.terminator? = some sought ∨ i.op.label?.isSome)

/-- The position is the first at which the search halts. -/
def FirstHalt (s : Stream) (sought : Terminator) (j : Nat) (i : Instruction) : Prop :=
  s.Halts sought j i ∧ ∀ k < j, ∀ x, ¬ s.Halts sought k x

variable {s : Stream}

/-- Positions behind the cursor are positions in the code that is left. -/
theorem halts_add_iff : s.Halts sought (s.cursor + j) i ↔ HaltsIn sought 0 s.rest.code j i := by
  unfold Halts HaltsIn rest
  rw [List.getElem?_drop, List.drop_take, Nat.add_sub_cancel_left, Int.zero_add]
  exact and_iff_right (Nat.le_add_right _ _)

theorem Halts.exists_add (h : s.Halts sought j i) : ∃ k, j = s.cursor + k :=
  ⟨j - s.cursor, by have := h.1; omega⟩

theorem firstHalt_add_iff :
    s.FirstHalt sought (s.cursor + j) i ↔ HaltsFirst sought 0 s.rest.code j i := by
  unfold FirstHalt HaltsFirst
  rw [halts_add_iff]
  refine and_congr_right fun _ => ⟨fun h k hk x hx => ?_, fun h k hk x hx => ?_⟩
  · exact h (s.cursor + k) (by omega) x (halts_add_iff.mpr hx)
  · obtain ⟨k, rfl⟩ := hx.exists_add
    exact h k (by omega) x (halts_add_iff.mp hx)

/-- A mark ends the body, and the cursor goes behind it. -/
theorem fetch_of_isMark (h : s.FirstHalt sought j i) (hm : i.IsMark sought label) :
    ∃ hj : j + 1 ≤ s.segment.code.length, fetch sought label s =
      .ok (ofSegment ⟨s.absolute s.cursor, (s.segment.code.take j).drop s.cursor⟩)
        ⟨s.segment, j + 1, hj⟩ := by
  have hj : j + 1 ≤ s.segment.code.length := (List.getElem?_eq_some_iff.mp h.1.2.1).1
  obtain ⟨k, rfl⟩ := h.1.exists_add
  refine ⟨hj, ?_⟩
  have hsplit : s.rest.takeBlock sought label =
      .ok (⟨s.absolute s.cursor, s.rest.code.take k⟩,
        ⟨s.absolute s.cursor + k + 1, s.rest.code.drop (k + 1)⟩) := by
    unfold Segment.takeBlock
    rw [Segment.splitBlock_of_isMark (firstHalt_add_iff.mp h) hm]
    rfl
  have hcursor : min (s.absolute s.cursor + k + 1 - s.segment.start) s.length =
      s.cursor + k + 1 := by
    unfold absolute length
    omega
  simp only [fetch, hsplit, moveTo, hcursor, List.drop_take, Nat.add_sub_cancel_left]
  rfl

theorem fetch_of_not_isMark (h : s.FirstHalt sought j i) (hm : ¬ i.IsMark sought label) :
    ∃ cause, fetch sought label s = .error ⟨s.absolute j, cause, none⟩ s := by
  obtain ⟨k, rfl⟩ := h.1.exists_add
  obtain ⟨cause, hsplit⟩ :=
    Segment.splitBlock_of_not_isMark (firstHalt_add_iff.mp h) hm s.rest.start []
  have htake : s.rest.takeBlock sought label =
      .error ⟨s.absolute (s.cursor + k), cause, none⟩ := by
    unfold Segment.takeBlock
    rw [hsplit, absolute, ← Nat.add_assoc]
    rfl
  exact ⟨cause, by simp only [fetch, htake]⟩

theorem fetch_of_not_halts (h : ∀ j i, ¬ s.Halts sought j i) :
    ∃ cause, fetch sought label s = .error ⟨s.absolute s.length, cause, none⟩ s := by
  have hrest : ∀ j i, ¬ HaltsIn sought 0 s.rest.code j i :=
    fun j i hj => h (s.cursor + j) i (halts_add_iff.mpr hj)
  have hend : s.rest.start + s.rest.code.length = s.absolute s.length := by
    have := s.inside
    simp only [rest, absolute, length, List.length_drop]
    omega
  have htake : s.rest.takeBlock sought label =
      .error ⟨s.absolute s.length, .missing sought, none⟩ := by
    unfold Segment.takeBlock
    rw [Segment.splitBlock_of_not_halts hrest, hend]
    rfl
  exact ⟨.missing sought, by simp only [fetch, htake]⟩

theorem Halts.exists_firstHalt (h : s.Halts sought j i) : ∃ k x, s.FirstHalt sought k x := by
  obtain ⟨j, rfl⟩ := h.exists_add
  obtain ⟨k, x, hfirst⟩ := (halts_add_iff.mp h).exists_first
  exact ⟨s.cursor + k, x, firstHalt_add_iff.mpr hfirst⟩

/-- **`fetch` cuts out exactly the current block.** It succeeds if and only if the search halts, and
where it halts first stands the mark with the expected label. It then gives the instructions from
the cursor up to the mark, at their places in the program and with the cursor at their start, and
leaves its own cursor behind the mark. Otherwise it fails with the place where the search halted, or
with the end of the stream if it did not halt, and leaves the stream as it was. -/
theorem fetch_cuts_at_first_halt (s : Stream) (sought : Terminator) (label : Option BlockLabel) :
    ((∃ body s', fetch sought label s = .ok body s') ↔
      ∃ j i, s.FirstHalt sought j i ∧ i.IsMark sought label) ∧
    (∀ j i, s.FirstHalt sought j i → i.IsMark sought label →
      ∃ hj : j + 1 ≤ s.segment.code.length, fetch sought label s =
        .ok (ofSegment ⟨s.absolute s.cursor, (s.segment.code.take j).drop s.cursor⟩)
          ⟨s.segment, j + 1, hj⟩) ∧
    (∀ j i, s.FirstHalt sought j i → ¬ i.IsMark sought label →
      ∃ cause, fetch sought label s = .error ⟨s.absolute j, cause, none⟩ s) ∧
    ((¬ ∃ j i, s.FirstHalt sought j i) →
      ∃ cause, fetch sought label s = .error ⟨s.absolute s.length, cause, none⟩ s) := by
  have hnone : (¬ ∃ j i, s.FirstHalt sought j i) →
      ∃ cause, fetch sought label s = .error ⟨s.absolute s.length, cause, none⟩ s :=
    fun h => fetch_of_not_halts fun j i hj => h hj.exists_firstHalt
  refine ⟨⟨?_, ?_⟩, fun j i => fetch_of_isMark, fun j i => fetch_of_not_isMark, hnone⟩
  · rintro ⟨body, s', hok⟩
    by_cases h : ∃ j i, s.FirstHalt sought j i
    · obtain ⟨j, i, hfirst⟩ := h
      by_cases hm : i.IsMark sought label
      · exact ⟨j, i, hfirst, hm⟩
      · obtain ⟨cause, herror⟩ := fetch_of_not_isMark hfirst hm
        cases hok.symm.trans herror
    · obtain ⟨cause, herror⟩ := hnone h
      cases hok.symm.trans herror
  · rintro ⟨j, i, hfirst, hm⟩
    obtain ⟨hj, hok⟩ := fetch_of_isMark hfirst hm
    exact ⟨_, _, hok⟩

/-- A conditional in the first branch of a conditional, behind the instruction that opens the outer
one. -/
def nestedBranch : Stream where
  segment := ⟨7, [.ifTrue, .pushTrue, .ifTrue, .orElse, .endBlock .cond, .orElse,
    .endBlock .cond, .pop].map (⟨·, .root⟩)⟩
  cursor := 1
  inside := by decide

/-- The mark of the inner conditional is passed and that of the outer one is found. The search for
the body of a loop fails at the end of the outer one. -/
theorem nestedBranch_cuts_at_first_halt :
    (∃ i, nestedBranch.FirstHalt .orElse 5 i ∧ i.IsMark .orElse none ∧
      ∃ hj, fetch .orElse none nestedBranch =
        .ok (ofSegment ⟨8, (nestedBranch.segment.code.take 5).drop 1⟩)
          ⟨nestedBranch.segment, 6, hj⟩) ∧
    ∃ i, nestedBranch.FirstHalt .loopBody 6 i ∧ ¬ i.IsMark .loopBody none ∧
      ∃ cause, fetch .loopBody none nestedBranch = .error ⟨13, cause, none⟩ nestedBranch := by
  constructor
  · obtain ⟨hiff, hcut, -⟩ := fetch_cuts_at_first_halt nestedBranch .orElse none
    obtain ⟨j, i, hfirst, hm⟩ := hiff.mp ⟨_, _, rfl⟩
    obtain ⟨hj, hok⟩ := hcut j i hfirst hm
    obtain rfl : j = 5 := by
      have hcursor : (⟨nestedBranch.segment, 6, by decide⟩ : Stream) =
          ⟨nestedBranch.segment, j + 1, hj⟩ := (EStateM.Result.ok.inj hok).2
      exact (Nat.succ.inj (congrArg cursor hcursor)).symm
    exact ⟨i, hfirst, hm, hj, hok⟩
  · obtain ⟨-, hcut, hfail, hnone⟩ := fetch_cuts_at_first_halt nestedBranch .loopBody none
    by_cases hhalt : ∃ j i, nestedBranch.FirstHalt .loopBody j i
    · obtain ⟨j, i, hfirst⟩ := hhalt
      have hm : ¬ i.IsMark .loopBody none := by
        intro hm
        obtain ⟨hj, hok⟩ := hcut j i hfirst hm
        cases hok
      obtain ⟨cause, herror⟩ := hfail j i hfirst hm
      obtain rfl : j = 6 := by
        have hindex : 13 = 7 + j := congrArg Malformed.index (EStateM.Result.error.inj herror).1
        omega
      exact ⟨i, hfirst, hm, cause, herror⟩
    · obtain ⟨cause, herror⟩ := hnone hhalt
      cases congrArg Malformed.index (EStateM.Result.error.inj herror).1

end Stream

end StackCode
