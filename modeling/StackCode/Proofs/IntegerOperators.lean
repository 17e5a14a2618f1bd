import Mathlib.Data.Rat.Floor
import StackCode.Machine.Builtin

/-!
# Integer operators

The machine divides with rounding towards zero and then corrects quotient and remainder, each by a
test of its own. Both tests say that the division is inexact and that the signs differ, so that the
corrected pair is the quotient rounded down and its remainder (`Floored`): that pair is the only one
with a remainder between zero and the divisor (`floor_eq_of_between`).

Main result: **`integer_operators_exact`**, which compares the operators with those on integers and
on fractions, and the folding of constants with the built-in methods.
-/

namespace StackCode.IntOp

/-! ## Rounding down -/

/-- The number is zero or lies on the way from zero to `b`, before `b`. -/
def Between (b r : ℤ) : Prop := 0 ≤ r ∧ r < b ∨ b < r ∧ r ≤ 0

/-- A quotient whose remainder lies between zero and the divisor is the one rounded down. -/
theorem floor_eq_of_between {a b q r : ℤ} (hr : Between b r) (ha : a = b * q + r) :
    ⌊(a : ℚ) / b⌋ = q := by
  have hb : (b : ℚ) ≠ 0 := by
    unfold Between at hr
    exact_mod_cast (by omega : b ≠ 0)
  have hquot : (a : ℚ) / b = q + r / b := by
    rw [ha]
    push_cast
    field_simp
  rw [hquot, Int.floor_intCast_add, add_eq_left, Int.floor_eq_zero_iff, Set.mem_Ico]
  rcases hr with ⟨h0, hlt⟩ | ⟨hlt, h0⟩
  · have hpos : (0 : ℚ) < b := by exact_mod_cast lt_of_le_of_lt h0 hlt
    exact ⟨div_nonneg (by exact_mod_cast h0) hpos.le, (div_lt_one hpos).mpr (by exact_mod_cast hlt)⟩
  · have hneg : (b : ℚ) < 0 := by exact_mod_cast lt_of_lt_of_le hlt h0
    exact ⟨div_nonneg_of_nonpos (by exact_mod_cast h0) hneg.le,
      (div_lt_one_of_neg hneg).mpr (by exact_mod_cast hlt)⟩

/-- A remainder of the division that rounds towards zero: it is smaller than the divisor and has the
sign of the dividend, so that adding the divisor corrects it where the signs differ. -/
theorem tmod_between (a : ℤ) {b : ℤ} (hb : b ≠ 0) :
    (a.tmod b ≠ 0 → (a.tmod b < 0 ↔ a < 0)) ∧
    if a.tmod b ≠ 0 ∧ (a < 0 ↔ ¬ b < 0) then Between b (a.tmod b + b) else Between b (a.tmod b) := by
  have hlt : (a.tmod b).natAbs < b.natAbs := by
    rw [Int.natAbs_tmod]
    exact Nat.mod_lt _ (Int.natAbs_pos.mpr hb)
  have hnonneg : 0 ≤ a → 0 ≤ a.tmod b := Int.tmod_nonneg b
  have hnonpos : a ≤ 0 → a.tmod b ≤ 0 := by
    intro ha
    have h := Int.tmod_nonneg b (Int.neg_nonneg_of_nonpos ha)
    rw [Int.neg_tmod] at h
    omega
  generalize a.tmod b = r at *
  unfold Between
  constructor
  · omega
  · split <;> omega

/-- What lies between zero and a 64-bit divisor needs no more bits than the divisor. -/
theorem Between.bmod_eq {b : Int64} {r : ℤ} (h : Between b.toInt r) : r.bmod (2 ^ 64) = r := by
  have hmin := b.minValue_le_toInt
  have hmax := b.toInt_lt
  have hvalue : Int64.minValue.toInt = -2 ^ 63 := rfl
  unfold Between at h
  exact Int.bmod_eq_of_le (by omega) (by omega)

/-- **Division on the machine**: the quotient rounded down, wrapped to 64 bits, and its remainder. -/
theorem exists_floored (a b : Int64) (hb : b ≠ 0) : ∃ q r : ℤ, Between b.toInt r ∧
    a.toInt = b.toInt * q + r ∧ floorDiv a b = .ofInt q ∧ (floorMod a b).toInt = r := by
  have hzero : b.toInt ≠ 0 := fun h => hb (Int64.toInt_inj.mp h)
  have hparts : b.toInt * a.toInt.tdiv b.toInt + a.toInt.tmod b.toInt = a.toInt :=
    Int.mul_tdiv_add_tmod _ _
  have hquot : a / b = .ofInt (a.toInt.tdiv b.toInt) :=
    Int64.toInt_inj.mp (by rw [Int64.toInt_div, Int64.toInt_ofInt])
  have hmod : a % b ≠ 0 ↔ a.toInt.tmod b.toInt ≠ 0 := by
    rw [← Int64.toInt_mod, ne_eq, ← Int64.toInt_inj]
    rfl
  have hrem : (a % b < 0) ↔ a.toInt.tmod b.toInt < 0 := by
    rw [Int64.lt_iff_toInt_lt, Int64.toInt_mod]
    rfl
  have hneg : ∀ c : Int64, c < 0 ↔ c.toInt < 0 := fun _ => Int64.lt_iff_toInt_lt
  obtain ⟨hsign, hbetween⟩ := tmod_between a.toInt hzero
  unfold floorDiv floorMod
  simp only [hmod, hrem, hneg a, hneg b]
  by_cases hcorrects : a.toInt.tmod b.toInt ≠ 0 ∧ (a.toInt < 0 ↔ ¬ b.toInt < 0)
  · rw [if_pos hcorrects] at hbetween
    refine ⟨a.toInt.tdiv b.toInt - 1, a.toInt.tmod b.toInt + b.toInt, hbetween, ?_, ?_, ?_⟩
    · rw [Int.mul_sub, Int.mul_one]
      omega
    · rw [if_pos hcorrects, hquot, Int64.ofInt_sub]
      rfl
    · rw [if_pos ⟨hcorrects.1, (hsign hcorrects.1).trans hcorrects.2⟩, Int64.toInt_add,
        Int64.toInt_mod, hbetween.bmod_eq]
  · rw [if_neg hcorrects] at hbetween
    refine ⟨a.toInt.tdiv b.toInt, a.toInt.tmod b.toInt, hbetween, hparts.symm, ?_, ?_⟩
    · rw [if_neg hcorrects, hquot]
    · rw [if_neg fun h => hcorrects ⟨h.1, (hsign h.1).symm.trans h.2⟩, Int64.toInt_mod]

/-- The quotient rounded down fits in 64 bits, with one exception. -/
theorem quotient_fits {a b : Int64} {q r : ℤ} (hr : Between b.toInt r)
    (ha : a.toInt = b.toInt * q + r) (hexcept : ¬ (a.toInt = -2 ^ 63 ∧ b.toInt = -1)) :
    -2 ^ 63 ≤ q ∧ q < 2 ^ 63 := by
  have hmin : -2 ^ 63 ≤ a.toInt := a.minValue_le_toInt
  have hmax := a.toInt_lt
  generalize a.toInt = a at *
  generalize b.toInt = b at *
  rcases hr with ⟨h0, hlt⟩ | ⟨hlt, h0⟩
  · constructor
    · by_contra hq
      have : b * (q + 1) ≤ b * -2 ^ 63 := mul_le_mul_of_nonneg_left (by omega) (by omega)
      nlinarith
    · by_contra hq
      nlinarith
  · constructor
    · by_contra hq
      nlinarith
    · by_contra hq
      refine hexcept ⟨?_, ?_⟩
      · nlinarith
      · nlinarith

/-- The quotient rounded down and its remainder, as the machine has them: the remainder exactly, the
quotient wrapped to 64 bits. -/
structure Floored (a b : Int64) : Prop where
  mod : (floorMod a b).toInt = a.toInt - b.toInt * ⌊(a.toInt : ℚ) / b.toInt⌋
  div : (floorDiv a b).toInt = Int.bmod ⌊(a.toInt : ℚ) / b.toInt⌋ (2 ^ 64)
  /-- One quotient does not fit. -/
  div_ne_iff : (floorDiv a b).toInt ≠ ⌊(a.toInt : ℚ) / b.toInt⌋ ↔ a = Int64.minValue ∧ b = -1
  parts : a = b * floorDiv a b + floorMod a b
  sign : floorMod a b = 0 ∨ (floorMod a b).toInt.sign = b.toInt.sign
  small : |(floorMod a b).toInt| < |b.toInt|

theorem floored_of_ne_zero {a b : Int64} (hb : b ≠ 0) : Floored a b := by
  obtain ⟨q, r, hr, ha, hdiv, hmod⟩ := exists_floored a b hb
  have hfloor := floor_eq_of_between hr ha
  have hwrap : (floorDiv a b).toInt = q.bmod (2 ^ 64) := by
    rw [hdiv]
    exact Int64.toInt_ofInt
  constructor
  · rw [hfloor, hmod, ha]
    omega
  · rw [hfloor, hwrap]
  · rw [hfloor, hwrap, ← Int64.toInt_inj, ← Int64.toInt_inj]
    constructor
    · intro hne
      by_contra hexcept
      obtain ⟨hmin, hmax⟩ := quotient_fits hr ha hexcept
      exact hne (Int.bmod_eq_of_le (by omega) (by omega))
    · rintro ⟨hmin, hneg⟩
      have hq : q = 2 ^ 63 := by
        have hmin' : a.toInt = -2 ^ 63 := hmin
        have hneg' : b.toInt = -1 := hneg
        unfold Between at hr
        rw [hneg'] at ha hr
        omega
      rw [hq]
      decide
  · have hmod' : floorMod a b = .ofInt r := by rw [← hmod, Int64.ofInt_toInt]
    calc a = .ofInt (b.toInt * q + r) := by rw [← ha, Int64.ofInt_toInt]
      _ = .ofInt b.toInt * .ofInt q + .ofInt r := by rw [Int64.ofInt_add, Int64.ofInt_mul]
      _ = b * floorDiv a b + floorMod a b := by rw [Int64.ofInt_toInt, hdiv, hmod']
  · rw [← Int64.toInt_inj, hmod]
    rcases eq_or_ne r 0 with hzero | hzero
    · exact .inl hzero
    · right
      rcases hr with ⟨h0, hlt⟩ | ⟨hlt, h0⟩
      · rw [Int.sign_eq_one_of_pos (by omega), Int.sign_eq_one_of_pos (by omega)]
      · rw [Int.sign_eq_neg_one_of_neg (by omega), Int.sign_eq_neg_one_of_neg (by omega)]
  · rw [hmod]
    rcases hr with ⟨h0, hlt⟩ | ⟨hlt, h0⟩
    · rwa [abs_of_nonneg h0, abs_of_nonneg (by omega)]
    · rw [abs_of_nonpos h0, abs_of_nonpos (by omega)]
      omega

end StackCode.IntOp

namespace StackCode

/-! ## Folding and calling -/

/-- The name of an operator. -/
def IntOp.name : IntOp → String
  | add => "+"
  | sub => "-"
  | mul => "*"
  | div => "/"
  | mod => "%"
  | lt => "<"
  | le => "<="
  | gt => ">"
  | ge => ">="
  | eq => "=="
  | ne => "!="

theorem IntOp.eq_name_of_ofName? {message : String} {op : IntOp}
    (h : ofName? message = some op) : message = op.name := by
  unfold ofName? at h
  split at h <;> cases h <;> rfl

/-- An integer answers an operator with its value, or reports a division by zero. -/
theorem Builtin.call?_name (op : IntOp) (a b : Int64) :
    call? (.int a) op.name [.int b] =
      some ((op.eval? a b).elim (.error .dividedByZero) .ok) := by
  cases op with
  | eq =>
    show some (Except.ok (Value.bool (Value.int a = Value.int b))) = some (.ok (.bool (a = b)))
    simp only [Value.int.injEq]
  | ne =>
    show some (Except.ok (Value.bool (Value.int a ≠ Value.int b))) = some (.ok (.bool (a ≠ b)))
    simp only [ne_eq, Value.int.injEq]
  | div | mod =>
    by_cases hb : b = 0
    · subst hb
      rfl
    · simp [call?, ofClass?, ofInt?, withOne, IntOp.ofName?, IntOp.name, IntOp.isArithmetic,
        IntOp.eval?, hb]
  | _ => rfl

/-- No other message has a value for an integer and one argument. -/
theorem Builtin.call?_ne_ok {message : String} (h : IntOp.ofName? message = none) (a b : Int64)
    (v : Value) : call? (.int a) message [.int b] ≠ some (.ok v) := by
  have hclass : ofClass? (.int a) message [.int b] = none := by
    simp only [ofClass?, ofInt?, h]
    rfl
  unfold call?
  rw [hclass, Option.none_or]
  unfold ofAny?
  split
  · cases h
  · cases h
  · simp [withNone]
  · simp [withNone]
  · simp [withNone]
  · simp

/-- Folding two integers gives the value of the built-in method, and nothing where the method gives
no value. -/
theorem foldInts?_eq_some_iff (message : String) (a b : Int64) (v : Value) :
    foldInts? message a b = some v ↔
      Builtin.call? (.int a) message [.int b] = some (.ok v) := by
  unfold foldInts?
  cases hop : IntOp.ofName? message with
  | some op =>
    rw [IntOp.eq_name_of_ofName? hop, Builtin.call?_name]
    show op.eval? a b = some v ↔ _
    cases op.eval? a b <;> simp
  | none =>
    refine iff_of_false ?_ (Builtin.call?_ne_ok hop a b v)
    intro h
    cases h

/-- **Integer operators round down and wrap.** Division gives the quotient rounded down and its
remainder; sums, differences and products are wrapped to 64 bits; comparisons are those of numbers.
Folding constants gives the values of the built-in methods, and only those. -/
theorem integer_operators_exact (a b : Int64) :
    (b ≠ 0 → IntOp.Floored a b) ∧
    (foldInts? "+" a b = some (.int (.ofInt (a.toInt + b.toInt))) ∧
      foldInts? "-" a b = some (.int (.ofInt (a.toInt - b.toInt))) ∧
      foldInts? "*" a b = some (.int (.ofInt (a.toInt * b.toInt))) ∧
      foldInts? "/" a b = (if b = 0 then none else some (.int (IntOp.floorDiv a b))) ∧
      foldInts? "%" a b = if b = 0 then none else some (.int (IntOp.floorMod a b))) ∧
    (foldInts? "<" a b = some (.bool (a.toInt < b.toInt)) ∧
      foldInts? "<=" a b = some (.bool (a.toInt ≤ b.toInt)) ∧
      foldInts? ">" a b = some (.bool (a.toInt > b.toInt)) ∧
      foldInts? ">=" a b = some (.bool (a.toInt ≥ b.toInt)) ∧
      foldInts? "==" a b = some (.bool (a.toInt = b.toInt)) ∧
      foldInts? "!=" a b = some (.bool (a.toInt ≠ b.toInt))) ∧
    ∀ message v, foldInts? message a b = some v ↔
      Builtin.call? (.int a) message [.int b] = some (.ok v) := by
  refine ⟨IntOp.floored_of_ne_zero, ⟨?_, ?_, ?_, rfl, rfl⟩, ⟨?_, ?_, ?_, ?_, ?_, ?_⟩,
    fun message v => foldInts?_eq_some_iff message a b v⟩
  · rw [Int64.ofInt_add, Int64.ofInt_toInt, Int64.ofInt_toInt]
    rfl
  · rw [Int64.ofInt_sub, Int64.ofInt_toInt, Int64.ofInt_toInt]
    rfl
  · rw [Int64.ofInt_mul, Int64.ofInt_toInt, Int64.ofInt_toInt]
    rfl
  · show some (Value.bool (a < b)) = _
    simp only [Int64.lt_iff_toInt_lt]
  · show some (Value.bool (a ≤ b)) = _
    simp only [Int64.le_iff_toInt_le]
  · show some (Value.bool (b < a)) = _
    simp only [Int64.lt_iff_toInt_lt, gt_iff_lt]
  · show some (Value.bool (b ≤ a)) = _
    simp only [Int64.le_iff_toInt_le, ge_iff_le]
  · show some (Value.bool (a = b)) = _
    simp only [Int64.toInt_inj]
  · show some (Value.bool (a ≠ b)) = _
    simp only [ne_eq, Int64.toInt_inj]

/-- The quotient that does not fit is wrapped. -/
theorem integer_operators_exact_minValue :
    (-1 : Int64) ≠ 0 ∧ (IntOp.floorDiv Int64.minValue (-1)).toInt ≠
        ⌊(Int64.minValue.toInt : ℚ) / (-1 : Int64).toInt⌋ ∧
      foldInts? "/" Int64.minValue (-1) = some (.int Int64.minValue) ∧
      foldInts? "%" Int64.minValue (-1) = some (.int 0) := by
  have hne : (-1 : Int64) ≠ 0 := by decide
  have hexact := integer_operators_exact Int64.minValue (-1)
  exact ⟨hne, (hexact.1 hne).div_ne_iff.mpr ⟨rfl, rfl⟩, by decide +kernel, by decide +kernel⟩

end StackCode
