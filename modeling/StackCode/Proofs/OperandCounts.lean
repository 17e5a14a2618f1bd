import StackCode.Proofs.CallBases
import StackCode.Proofs.Heights
import StackCode.Proofs.WireRoundTrip

/-!
# Counts of operands

The number of arguments of a message or a yield is any 64-bit number that an encoded program holds.
The height check adds the receiver and the block to it, and the machine adds it to the base of the
current call. Where the sum is not a 64-bit number, both abort. So the check accepts no instruction
whose operands are not there; but the machine, which should say so when operands are missing, says
so only where the sum fits (`yield_aborts_without_operands`).

Main result: **`operand_counts_exact_where_sums_fit`**, for every program.
-/

namespace StackCode

/-! ## What a check that succeeds has compared -/

namespace Op

/-- How many operands a message or a yield takes, as a number without bound: the arguments, the
receiver and the block. -/
def operandCount? : Op → Option Nat
  | send _ argc receiver withBlock => some (argc.toNat + receiver.toNat + withBlock.toNat)
  | yield argc => some argc.toNat
  | _ => none

theorem isStep_of_operandCount? {op : Op} {count : Nat} (h : op.operandCount? = some count) :
    op.isStep = true := by
  cases op with
  | orElse | loopBody | endBlock => cases h
  | _ => rfl

/-- What the check takes an operation to need is the number of its operands. -/
theorem eq_of_effect {op : Op} {count taken left : Nat} (hcount : op.operandCount? = some count)
    (he : op.effect? = some (taken, left)) : taken = count := by
  cases op with
  | send message argc receiver withBlock =>
    cases hcount
    unfold effect? at he
    dsimp only at he
    split at he
    · cases he
      rfl
    · cases he
  | yield argc =>
    cases hcount
    cases he
    rfl
  | _ => cases hcount

end Op

variable {s : Segment} {h last : Nat} {record : List (Nat × Nat)}

/-- **Every message and every yield in the record finds its operands.** -/
theorem Checked.operandCount_le {P : Program} (hc : Checked s h record last) (hs : s.Within P) :
    ∀ e ∈ record, ∃ i, P.code[e.1]? = some i ∧
      ∀ count, i.op.operandCount? = some count → count ≤ e.2 := by
  induction hc with
  | nil => exact List.forall_mem_nil _
  | plain he hh _ ih =>
    refine List.forall_mem_cons.mpr ⟨⟨_, hs.head, fun count hcount => ?_⟩, ih hs.tail⟩
    exact Op.eq_of_effect hcount he ▸ hh
  | cond hi hcut hcut' _ _ _ ih ih' ihr | loop hi hcut hcut' _ _ _ ih ih' ihr =>
    obtain ⟨hfirst, hmid⟩ := hs.tail.parts hcut
    obtain ⟨hsecond, hafter⟩ := hmid.parts hcut'
    refine List.forall_mem_cons.mpr ⟨⟨_, hs.head, fun count hcount => ?_⟩, ?_⟩
    · rw [hi] at hcount
      cases hcount
    · rw [List.forall_mem_append, List.forall_mem_append]
      exact ⟨⟨ih hfirst, ih' hsecond⟩, ihr hafter⟩
  | method hi hcut _ _ ihb ihr | block hi hcut _ _ ihb ihr =>
    obtain ⟨hbody, hafter⟩ := hs.tail.parts hcut
    refine List.forall_mem_cons.mpr ⟨⟨_, hs.head, fun count hcount => ?_⟩, ?_⟩
    · rw [hi] at hcount
      cases hcount
    · exact List.forall_mem_append.mpr ⟨ihb hbody, ihr hafter⟩

/-! ## What the machine compares -/

namespace Machine

variable {s : State} {n : UInt64} {index : Nat}

/-- How many operands the current call has. -/
def State.live (s : State) : Nat := s.stack.length - s.base

/-- The machine runs out of operands exactly when there are too few, if the height that it needs is
a 64-bit number. -/
theorem popN_outOfStack_iff (hbase : s.base ≤ s.stack.length)
    (hsum : s.base + n.toNat < 2 ^ 64) :
    popN n index s = malformed index .outOfStack s ↔ s.live < n.toNat := by
  have hfits : s.base + n.toNat < UInt64.size := hsum
  unfold popN State.live shortage
  rw [if_pos hfits]
  by_cases hshort : s.stack.length < s.base + n.toNat
  · rw [if_pos hshort]
    exact iff_of_true rfl (by omega)
  · rw [if_neg hshort]
    exact iff_of_false nofun (by omega)

/-- The machine aborts for want of operands if the height that it needs is too large. -/
theorem popN_of_sum_overflows (hbase : s.base ≤ s.stack.length) (hstack : s.stack.length < 2 ^ 64)
    (hsum : 2 ^ 64 ≤ s.base + n.toNat) :
    s.live < n.toNat ∧ popN n index s = fail (.countOverflow (s.base + n.toNat)) s := by
  have hlarge : UInt64.size ≤ s.base + n.toNat := hsum
  unfold popN State.live shortage
  rw [if_pos (by omega), if_neg (Nat.not_lt.mpr hlarge)]
  exact ⟨by omega, rfl⟩

/-- **Operands are counted right where the sums fit.** Of every program:

* if the check accepts it, every message and every yield has a height in its record, and the
  arguments, the receiver and the block, as a number without bound, are no more than that;
* in every state of its runs, taking `n` operands fails for want of operands if and only if the
  current call has fewer, provided that the base of the call and `n` add up to a 64-bit number. If
  they do not, and the stack is no higher than can be counted, there are fewer, and the machine
  aborts. -/
theorem operand_counts_exact_where_sums_fit (P : Program) :
    (∀ expected, checkHeights P.code expected = .ok () →
      ∃ record, P.segment.heights 0 = .ok (record, expected) ∧
        ∀ k i count, P.code[k]? = some i → i.op.operandCount? = some count →
          (∃ h, (k, h) ∈ record) ∧ ∀ h, (k, h) ∈ record → count ≤ h) ∧
    ∀ s, Reached P s → ∀ n index,
      (s.base + n.toNat < 2 ^ 64 →
        (popN n index s = malformed index .outOfStack s ↔ s.live < n.toNat)) ∧
      (s.stack.length < 2 ^ 64 → 2 ^ 64 ≤ s.base + n.toNat →
        s.live < n.toNat ∧ popN n index s = fail (.countOverflow (s.base + n.toNat)) s) := by
  refine ⟨fun expected hcheck => ?_, fun s hs n index => ⟨?_, ?_⟩⟩
  · obtain ⟨record, hrecord, hc⟩ := exists_checked_of_checkHeights hcheck
    refine ⟨record, hrecord, fun k i count hi hcount => ⟨?_, fun h hk => ?_⟩⟩
    · have hplace : 0 + k ∈ placesFrom Op.isStep 0 P.code :=
        mem_placesFrom hi (Op.isStep_of_operandCount? hcount)
      rw [Nat.zero_add, ← hc.places] at hplace
      obtain ⟨⟨k, h⟩, hmem, rfl⟩ := List.mem_map.mp hplace
      exact ⟨h, hmem⟩
    · obtain ⟨j, hj, hfinds⟩ := hc.operandCount_le (Segment.within_segment P) (k, h) hk
      obtain rfl : i = j := Option.some.inj (hi.symm.trans hj)
      exact hfinds count hcount
  · exact popN_outOfStack_iff hs.base_le
  · exact popN_of_sum_overflows hs.base_le

/-- A method that yields one operand and is called above one. -/
def yieldingOne : Program where
  code := [⟨.pushNil, .root⟩, ⟨.defineMethod "each" ⟨1⟩, .root⟩, ⟨.pushNil, ⟨1⟩⟩, ⟨.yield 1, ⟨1⟩⟩,
    ⟨.endBlock .method, ⟨1⟩⟩, ⟨.pop, .root⟩, ⟨.send "each" 0 false false, .root⟩]
  scopes := (ScopeTree.initial.push .root .method).1

theorem operand_counts_exact_yieldingOne :
    Program.decode yieldingOne.encode = .ok yieldingOne ∧
    checkHeights yieldingOne.code 2 = .ok () ∧
    (∃ record h, yieldingOne.segment.heights 0 = .ok (record, 2) ∧ (3, h) ∈ record ∧ 1 ≤ h) ∧
    ∃ s, Reached yieldingOne s ∧ s.stack.length = 2 ∧ s.base = 1 ∧
      popN 2 3 s = malformed 3 .outOfStack s := by
  have hP : Program.decode yieldingOne.encode = .ok yieldingOne := by decide +kernel
  have hcheck : checkHeights yieldingOne.code 2 = .ok () := by decide +kernel
  obtain ⟨hheights, hruns⟩ := operand_counts_exact_where_sums_fit yieldingOne
  obtain ⟨record, hrecord, hcounts⟩ := hheights 2 hcheck
  obtain ⟨⟨h, hmem⟩, hle⟩ := hcounts 3 ⟨.yield 1, ⟨1⟩⟩ 1 rfl rfl
  -- the sixth instruction is the yield
  have hs : Reached yieldingOne _ := .stop 20 { steps := some 5 } none
  refine ⟨hP, hcheck, ⟨record, h, hrecord, hmem, hle h hmem⟩, _, hs, ?_, ?_, ?_⟩
  · decide +kernel
  · decide +kernel
  · exact ((hruns _ hs 2 3).1 (by decide +kernel)).mpr (by decide +kernel)

/-- A method that yields as many arguments as can be counted, and is called above one operand. -/
def yieldingAll : Program where
  code := [⟨.pushNil, .root⟩, ⟨.defineMethod "each" ⟨1⟩, .root⟩,
    ⟨.yield 18446744073709551615, ⟨1⟩⟩, ⟨.endBlock .method, ⟨1⟩⟩, ⟨.pop, .root⟩,
    ⟨.send "each" 0 false false, .root⟩]
  scopes := (ScopeTree.initial.push .root .method).1

/-- **The machine does not say that operands are missing when their number overflows.** A run of a
valid program comes to a state in which the current call has no operand and `2 ^ 64 - 1` are to be
taken. It is not out of stack there: it aborts. -/
theorem yield_aborts_without_operands :
    Program.decode yieldingAll.encode = .ok yieldingAll ∧ yieldingAll.validate = .ok () ∧
    (run {} none yieldingAll).result = .error (.fault (.countOverflow (2 ^ 64))) ∧
    ∃ s, Reached yieldingAll s ∧ s.live = 0 ∧
      popN 18446744073709551615 2 s = fail (.countOverflow (2 ^ 64)) s ∧
      popN 18446744073709551615 2 s ≠ malformed 2 .outOfStack s := by
  have hs : Reached yieldingAll _ := .stop 20 {} none
  have hpop : popN 18446744073709551615 2 _ = fail (.countOverflow (2 ^ 64)) _ :=
    (popN_of_sum_overflows hs.base_le (by decide +kernel) (by decide +kernel)).2
  refine ⟨by decide +kernel, by decide +kernel, by decide +kernel, _, hs, by decide +kernel, hpop, ?_⟩
  rw [hpop]
  nofun

end Machine

end StackCode
