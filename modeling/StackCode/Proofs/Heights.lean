import StackCode.Proofs.CheckedHeights
import StackCode.Proofs.Placement

/-!
# What the height check accepts

The height check accepts nested code only (`nested_of_checkHeights`), and hence exactly the code
that a scan reads to its end. It goes on behind a `break` or a `next` as if they led there, so that
it does not compare the height at which they stand with the one at which their loop began:
`ExitsAbove` asks for that.
-/

namespace StackCode

variable {d d' : Discipline} {p q : Point} {around : List Enclosing}
  {σ τ : Point × List Enclosing} {i : Instruction} {code : List Instruction}

/-! ## Accepted code is nested -/

theorem Op.eq_orElse_of_terminator? {op : Op} (h : op.terminator? = some .orElse) :
    op = .orElse := by
  cases op with
  | orElse => rfl
  | _ => cases h

theorem Op.eq_loopBody_of_terminator? {op : Op} (h : op.terminator? = some .loopBody) :
    op = .loopBody := by
  cases op with
  | loopBody => rfl
  | _ => cases h

theorem Op.eq_endBlock_of_label? {op : Op} {label : BlockLabel} (h : op.label? = some label) :
    op = .endBlock label := by
  cases op with
  | endBlock l =>
    cases h
    rfl
  | _ => cases h

/-- Nothing is asked of an instruction besides its operands. -/
def anywhere : Discipline := ⟨fun _ _ => true, false⟩

open Segment in
/-- **The height check accepts nested code only.** -/
theorem Checked.nested {s : Segment} {h last : Nat} {record : List (Nat × Nat)}
    (hc : Checked s h record last) :
    ∀ p : Point, p.height = h → ∃ q, Nested anywhere p s.code q ∧ q.height = last := by
  induction hc with
  | nil => exact fun p hp => ⟨p, .nil p, hp⟩
  | plain he hh _ ih =>
    intro p hp
    obtain ⟨q, hq, hqh⟩ := ih (p.atHeight _) rfl
    rw [← hp] at hh hq
    exact ⟨q, .plain rfl he hh hq, hqh⟩
  | @cond _ h _ _ _ _ _ _ _ _ _ _ _ hi hcut hcut' _ _ _ ihy ihn ihr =>
    intro p hp
    obtain ⟨j, rfl, hj, -⟩ := exists_mark_of_takeBlock hcut
    obtain ⟨k, hmid, -, hk⟩ := exists_mark_of_takeBlock hcut'
    have hbelow : p.height - 1 = h := by omega
    obtain ⟨y, hy, rfl⟩ := ihy (p.atHeight (p.height - 1)) hbelow
    obtain ⟨n, hn, heq⟩ := ihn (p.atHeight (p.height - 1)) hbelow
    obtain ⟨q, hq, hqh⟩ := ihr (p.atHeight y.height) rfl
    rw [hmid]
    exact ⟨q, .cond rfl hi (Op.eq_orElse_of_terminator? hj) (Op.eq_endBlock_of_label? (hk _ rfl))
      (by omega) hy hn heq hq, hqh⟩
  | loop hi hcut hcut' _ _ _ iht ihb ihr =>
    intro p hp
    obtain ⟨j, rfl, hj, -⟩ := exists_mark_of_takeBlock hcut
    obtain ⟨k, hmid, -, hk⟩ := exists_mark_of_takeBlock hcut'
    obtain ⟨t, ht, hth⟩ := iht p.inLoop hp
    obtain ⟨b, hb, hbh⟩ := ihb p.inLoop hp
    obtain ⟨q, hq, hqh⟩ := ihr (p.atHeight p.height) hp
    rw [← hp] at hth hbh
    rw [hmid]
    exact ⟨q, .loop rfl hi (Op.eq_loopBody_of_terminator? hj)
      (Op.eq_endBlock_of_label? (hk _ rfl)) ht hth hb hbh hq, hqh⟩
  | @method _ _ _ i _ name s _ _ _ _ hi hcut _ _ ihb ihr =>
    intro p hp
    obtain ⟨k, rfl, -, hk⟩ := exists_mark_of_takeBlock hcut
    obtain ⟨b, hb, hbh⟩ := ihb (.start .method s) rfl
    obtain ⟨q, hq, hqh⟩ := ihr (p.atHeight (p.height + 1)) (congrArg (· + 1) hp)
    exact ⟨q, .method rfl hi (Op.eq_endBlock_of_label? (hk _ rfl)) hb hbh hq, hqh⟩
  | @block _ _ _ i _ s _ _ _ _ hi hcut _ _ ihb ihr =>
    intro p hp
    obtain ⟨k, rfl, -, hk⟩ := exists_mark_of_takeBlock hcut
    obtain ⟨b, hb, hbh⟩ := ihb (.start .block s) rfl
    obtain ⟨q, hq, hqh⟩ := ihr (p.behindBlock false) (congrArg (· + 1) hp)
    exact ⟨q, .block rfl hi (Op.eq_endBlock_of_label? (hk _ rfl)) hb hbh hq, hqh⟩

/-- Code that is accepted leaves as many values as expected, by a check that has a record. -/
theorem exists_checked_of_checkHeights {n : Nat} (h : checkHeights code n = .ok ()) :
    ∃ record, Segment.heights ⟨0, code⟩ 0 = .ok (record, n) ∧
      Checked ⟨0, code⟩ 0 record n := by
  obtain ⟨height, hheight, hguard⟩ := bind_eq_ok h
  have heq : height = n := by
    by_cases heq : height = n
    · exact heq
    · rw [if_pos heq] at hguard
      cases hguard
  exact heq ▸ exists_checked_of_heightWithin hheight

/-- **Code that passes is nested**, and comes to the height it was checked for. -/
theorem nested_of_checkHeights {n : Nat} (h : checkHeights code n = .ok ()) (hp : p.height = 0) :
    ∃ q, Nested anywhere p code q ∧ q.height = n := by
  obtain ⟨record, -, hc⟩ := exists_checked_of_checkHeights h
  exact hc.nested p hp

/-! ## Nested code is scanned -/

theorem scan_of_nested (h : Nested anywhere p code q) :
    ∀ around, scan anywhere (p, around) code = some (q, around) := by
  induction h with
  | nil p => exact fun _ => rfl
  | plain ha he hh _ ih =>
    intro around
    rw [scan_cons, scanStep_plain ha he hh]
    exact ih around
  | @cond p q y m i j k yes no rest _ hi hj hk hh _ _ heq _ ihy ihn ihr =>
    intro around
    have hopen : scanStep anywhere (p, around) i =
        some (p.atHeight (p.height - 1), .yes (p.atHeight (p.height - 1)) :: around) := by
      simp [scanStep, anywhere, hi, Op.effect?, Nat.ne_of_gt hh]
    have helse : scanStep anywhere (y, .yes (p.atHeight (p.height - 1)) :: around) j =
        some (p.atHeight (p.height - 1), .no (p.atHeight (p.height - 1)) y.height :: around) := by
      simp [scanStep, anywhere, hj, Op.effect?]
    have hclose : scanStep anywhere (m, .no (p.atHeight (p.height - 1)) y.height :: around) k =
        some (p.atHeight y.height, around) := by
      simp [scanStep, anywhere, hk, Op.effect?, heq]
    rw [scan_cons, hopen, Option.bind_some, scan_append, ihy, Option.bind_some, scan_cons, helse,
      Option.bind_some, scan_append, ihn, Option.bind_some, scan_cons, hclose]
    exact ihr around
  | @loop p q t b i j k test body rest _ hi hj hk _ htest _ hbody _ iht ihb ihr =>
    intro around
    have hopen : scanStep anywhere (p, around) i = some (p.inLoop, .test p :: around) := by
      simp [scanStep, anywhere, hi, Op.effect?]
    have hturn : scanStep anywhere (t, .test p :: around) j =
        some (p.inLoop, .round p :: around) := by
      simp [scanStep, anywhere, hj, Op.effect?, htest]
    have hclose : scanStep anywhere (b, .round p :: around) k =
        some (p.atHeight p.height, around) := by
      simp [scanStep, anywhere, hk, Op.effect?, hbody]
    rw [scan_cons, hopen, Option.bind_some, scan_append, iht, Option.bind_some, scan_cons, hturn,
      Option.bind_some, scan_append, ihb, Option.bind_some, scan_cons, hclose]
    exact ihr around
  | @method p q b i k name s body rest _ hi hk _ hbody _ ihb ihr =>
    intro around
    have hopen : scanStep anywhere (p, around) i = some (.start .method s, .method p :: around) := by
      simp [scanStep, anywhere, hi, Op.effect?]
    have hclose : scanStep anywhere (b, .method p :: around) k =
        some (p.atHeight (p.height + 1), around) := by
      simp [scanStep, anywhere, hk, Op.effect?, hbody]
    rw [scan_cons, hopen, Option.bind_some, scan_append, ihb, Option.bind_some, scan_cons, hclose]
    exact ihr around
  | @block p q b i k s body rest _ hi hk _ hbody _ ihb ihr =>
    intro around
    have hopen : scanStep anywhere (p, around) i = some (.start .block s, .block p :: around) := by
      simp [scanStep, anywhere, hi, Op.effect?]
    have hclose : scanStep anywhere (b, .block p :: around) k =
        some (p.behindBlock false, around) := by
      simp [scanStep, anywhere, hk, Op.effect?, hbody]
    rw [scan_cons, hopen, Option.bind_some, scan_append, ihb, Option.bind_some, scan_cons, hclose]
    exact ihr around

theorem scanStep_of_admits (hawaits : d'.awaits = d.awaits) (ha : d'.admits p i = true)
    (h : scanStep d (p, around) i = some τ) : scanStep d' (p, around) i = some τ := by
  have hd := admits_of_scanStep h
  unfold scanStep at h ⊢
  dsimp only at h ⊢
  rw [if_pos hd] at h
  rw [if_pos ha, hawaits]
  exact h

/-- A scan goes through under every discipline that admits what it met. -/
theorem scan_of_admits (h : scan d σ code = some τ) (hawaits : d'.awaits = d.awaits)
    (ha : ∀ i ∈ code, ∀ p, d.admits p i = true → d'.admits p i = true) :
    scan d' σ code = some τ := by
  induction code generalizing σ with
  | nil => exact h
  | cons i code ih =>
    obtain ⟨ρ, hstep, hrest⟩ := scan_cons_eq_some h
    have hi := ha i (List.mem_cons_self ..) σ.1 (admits_of_scanStep hstep)
    rw [scan_cons, scanStep_of_admits hawaits hi hstep]
    exact ih hrest fun j hj => ha j (List.mem_cons_of_mem _ hj)

/-! ## Ways out of loops -/

namespace Op

/-- Whether the instruction is meant for the loop around it. -/
def exitsLoop : Op → Bool
  | breakOut | next false => true
  | _ => false

/-- The number of arguments that the instruction passes on. -/
def argCount : Op → UInt64
  | send _ argc _ _ | yield argc => argc
  | _ => 0

end Op

/-- A loop is left, or gone on with, at no less than the height at which it began. -/
def exitsAbove : Discipline where
  admits p i := ! i.op.exitsLoop || decide (p.floor ≤ p.height)
  awaits := false

/-- Every way out of a loop stands at no less than the height at which the loop began. -/
def ExitsAbove (code : List Instruction) : Prop :=
  (scan exitsAbove (.start .top .root, []) code).isSome = true

/-- Besides, no instruction has so many arguments that their number overflows. -/
def levelled : Discipline where
  admits p i := exitsAbove.admits p i && decide (i.op.argCount.toNat < 2 ^ 63)
  awaits := false

/-- **Accepted code whose loops are left from above is nested and levelled.** -/
theorem nested_levelled {n : Nat} (hcheck : checkHeights code n = .ok ())
    (hexits : ExitsAbove code) (hargs : ∀ i ∈ code, i.op.argCount.toNat < 2 ^ 63) :
    ∃ q, Nested levelled (.start .top .root) code q ∧ q.height = n := by
  obtain ⟨q, hq, hqh⟩ := nested_of_checkHeights (p := .start .top .root) hcheck rfl
  obtain ⟨τ, hτ⟩ := Option.isSome_iff_exists.mp hexits
  -- the scan ends where the check did, with no block left open
  have hany : scan anywhere (.start .top .root, []) code = some τ :=
    scan_of_admits hτ rfl fun _ _ _ _ => rfl
  rw [scan_of_nested hq] at hany
  cases hany
  refine ⟨q, nested_of_scan (scan_of_admits hτ rfl fun i hi p ha => ?_), hqh⟩
  show (exitsAbove.admits p i && _) = true
  rw [ha, decide_eq_true (hargs i hi)]
  rfl

end StackCode
