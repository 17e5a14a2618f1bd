import StackCode.Code.Height
import StackCode.Expr.Lower

/-!
# Nested code

Code is a flat list in which blocks are marked. Two descriptions of well nested code stand side by
side.

* `scan` reads a list once, from left to right, and keeps the blocks that are open on a stack. It
  composes with `++`, and a rewriting that acts on neighbouring instructions is seen locally.
* `Nested` is a derivation that follows the structure of the blocks, as every consumer of code does.

`nested_of_scan` turns the first into the second. From a derivation it follows that `takeBlock` cuts
each block out (`Nested.takeBlock`) and that the height check passes (`Nested.height`).

Both take a `Discipline`: what is asked of an instruction besides its operands.
-/

namespace StackCode

/-! ## Points of code -/

/-- Where code stands: its body, the height at which the innermost loop of that body began, and the
scope of the body. -/
structure Site where
  body : BodyKind
  loop : Option Nat := none
  scope : ScopeId
deriving DecidableEq, Repr

/-- What is known, before a run, about the place between two instructions. -/
structure Point where
  site : Site
  height : Nat
  /-- A block literal ends here, and the call that takes it has to follow. -/
  awaiting : Bool := false
deriving DecidableEq, Repr

namespace Point

/-- The point with another height. -/
def atHeight (p : Point) (height : Nat) : Point := { p with height, awaiting := false }

/-- The point inside a loop that begins here. -/
def inLoop (p : Point) : Point := ⟨{ p.site with loop := some p.height }, p.height, false⟩

/-- The point behind a block literal that begins here. -/
def behindBlock (p : Point) (awaiting : Bool) : Point := { p with height := p.height + 1, awaiting }

/-- The start of a body. -/
def start (body : BodyKind) (scope : ScopeId) : Point := ⟨{ body, scope }, 0, false⟩

@[simp] theorem atHeight_site (p : Point) (h : Nat) : (p.atHeight h).site = p.site := rfl
@[simp] theorem atHeight_height (p : Point) (h : Nat) : (p.atHeight h).height = h := rfl
@[simp] theorem atHeight_awaiting (p : Point) (h : Nat) : (p.atHeight h).awaiting = false := rfl
@[simp] theorem atHeight_atHeight (p : Point) (h k : Nat) :
    (p.atHeight h).atHeight k = p.atHeight k := rfl
@[simp] theorem inLoop_height (p : Point) : p.inLoop.height = p.height := rfl
@[simp] theorem start_height (b : BodyKind) (s : ScopeId) : (start b s).height = 0 := rfl

end Point

/-- What is asked of code besides that every instruction finds its operands. -/
structure Discipline where
  /-- Whether the instruction may stand at the point. -/
  admits : Point → Instruction → Bool
  /-- Whether a block literal has to be followed by the call that takes it. -/
  awaits : Bool

/-! ## Scanning -/

/-- A block that is open, and the point to which its end leads back. -/
inductive Enclosing where
  /-- The first branch of a conditional. -/
  | yes (outer : Point)
  /-- The second branch, and the height that the first one left. -/
  | no (outer : Point) (height : Nat)
  | test (outer : Point)
  | round (outer : Point)
  | method (outer : Point)
  | block (outer : Point)

/-- Reads one instruction at a point inside open blocks. -/
def scanStep (d : Discipline) : Point × List Enclosing → Instruction →
    Option (Point × List Enclosing)
  | (p, around), i =>
    if d.admits p i then
      match i.op.effect? with
      | some (taken, left) =>
        if p.height < taken then none else some (p.atHeight (p.height - taken + left), around)
      | none =>
        match i.op, around with
        | .ifTrue, around =>
          if p.height = 0 then none
          else some (p.atHeight (p.height - 1), .yes (p.atHeight (p.height - 1)) :: around)
        | .orElse, .yes q :: around => some (q, .no q p.height :: around)
        | .endBlock .cond, .no q h :: around =>
          if p.height = h then some (q.atHeight h, around) else none
        | .whileTrue, around => some (p.inLoop, .test p :: around)
        | .loopBody, .test q :: around =>
          if p.height = q.height + 1 then some (q.inLoop, .round q :: around) else none
        | .endBlock .loop, .round q :: around =>
          if p.height = q.height then some (q.atHeight q.height, around) else none
        | .defineMethod _ s, around => some (.start .method s, .method p :: around)
        | .endBlock .method, .method q :: around =>
          if p.height = 1 then some (q.atHeight (q.height + 1), around) else none
        | .defineBlock s, around => some (.start .block s, .block p :: around)
        | .endBlock .block, .block q :: around =>
          if p.height = 1 then some (q.behindBlock d.awaits, around) else none
        | _, _ => none
    else none

/-- Reads code at a point inside open blocks. -/
def scan (d : Discipline) (start : Point × List Enclosing) (code : List Instruction) :
    Option (Point × List Enclosing) :=
  code.foldlM (scanStep d) start

variable {d : Discipline} {p q : Point} {around : List Enclosing} {σ τ : Point × List Enclosing}
  {i : Instruction} {code : List Instruction}

@[simp] theorem scan_nil (σ : Point × List Enclosing) : scan d σ [] = some σ := rfl

theorem scan_cons (σ : Point × List Enclosing) (i : Instruction) (code : List Instruction) :
    scan d σ (i :: code) = (scanStep d σ i).bind (scan d · code) := rfl

/-- **A scan composes.** -/
theorem scan_append (σ : Point × List Enclosing) (a b : List Instruction) :
    scan d σ (a ++ b) = (scan d σ a).bind (scan d · b) := by
  unfold scan
  rw [List.foldlM_append]
  rfl

theorem scan_cons_eq_some (h : scan d σ (i :: code) = some τ) :
    ∃ ρ, scanStep d σ i = some ρ ∧ scan d ρ code = some τ := by
  rw [scan_cons] at h
  exact Option.bind_eq_some_iff.mp h

/-- A scan of two pieces stops between them in some state. -/
theorem scan_append_eq_some {a b : List Instruction} (h : scan d σ (a ++ b) = some τ) :
    ∃ ρ, scan d σ a = some ρ ∧ scan d ρ b = some τ := by
  rw [scan_append] at h
  exact Option.bind_eq_some_iff.mp h

theorem scan_append_of_eq_some {a b : List Instruction} {ρ : Point × List Enclosing}
    (ha : scan d σ a = some ρ) (hb : scan d ρ b = some τ) : scan d σ (a ++ b) = some τ := by
  rw [scan_append, ha]
  exact hb

/-- The scan goes on only over what the discipline admits. -/
theorem admits_of_scanStep (h : scanStep d (p, around) i = some σ) : d.admits p i = true := by
  cases ha : d.admits p i with
  | true => rfl
  | false =>
    have hno : ¬ d.admits p i = true := by rw [ha]; exact Bool.false_ne_true
    have h := (if_neg hno).symm.trans h
    cases h

/-- An instruction without a block moves the height as the table of effects says. -/
theorem scanStep_plain {taken left : Nat} (ha : d.admits p i = true)
    (he : i.op.effect? = some (taken, left)) (hh : taken ≤ p.height) :
    scanStep d (p, around) i = some (p.atHeight (p.height - taken + left), around) := by
  refine (if_pos ha).trans ?_
  rw [he]
  exact if_neg (Nat.not_lt.mpr hh)

/-- An instruction that was scanned found its operands. -/
theorem scanStep_plain_eq_some {taken left : Nat} (he : i.op.effect? = some (taken, left))
    (h : scanStep d (p, around) i = some σ) :
    taken ≤ p.height ∧ σ = (p.atHeight (p.height - taken + left), around) := by
  have h := (if_pos (admits_of_scanStep h)).symm.trans h
  rw [he] at h
  obtain ⟨hlt, h⟩ := Option.ite_none_left_eq_some.mp h
  exact ⟨Nat.le_of_not_lt hlt, (Option.some.inj h).symm⟩

/-! ## Marks

Which mark may be read depends on the innermost open block alone. -/

/-- The marks are the divisions of a conditional and of a loop, and the ends of blocks. -/
theorem Op.mark_cases {op : Op} (h : op.terminator?.isSome) :
    op = .orElse ∨ op = .loopBody ∨ ∃ label, op = .endBlock label := by
  cases op with
  | orElse => exact Or.inl rfl
  | loopBody => exact Or.inr (Or.inl rfl)
  | endBlock label => exact Or.inr (Or.inr ⟨label, rfl⟩)
  | _ => cases h

/-- Outside all blocks no mark may be read. -/
theorem scanStep_mark_nil (hm : i.op.terminator?.isSome) : scanStep d (p, []) i = none := by
  obtain ⟨op, scope⟩ := i
  cases hstep : scanStep d (p, []) ⟨op, scope⟩ with
  | none => rfl
  | some σ =>
    have h := (if_pos (admits_of_scanStep hstep)).symm.trans hstep
    rcases Op.mark_cases hm with rfl | rfl | ⟨label, rfl⟩
    · cases h
    · cases h
    · cases label <;> cases h

/-- The first branch ends with the mark of the second. -/
theorem scanStep_mark_yes (hm : i.op.terminator?.isSome)
    (h : scanStep d (p, .yes q :: around) i = some σ) :
    i.op = .orElse ∧ σ = (q, .no q p.height :: around) := by
  obtain ⟨op, scope⟩ := i
  have h := (if_pos (admits_of_scanStep h)).symm.trans h
  rcases Op.mark_cases hm with rfl | rfl | ⟨label, rfl⟩
  · exact ⟨rfl, (Option.some.inj h).symm⟩
  · cases h
  · cases label <;> cases h

/-- The second branch ends at the height that the first one left. -/
theorem scanStep_mark_no {n : Nat} (hm : i.op.terminator?.isSome)
    (h : scanStep d (p, .no q n :: around) i = some σ) :
    i.op = .endBlock .cond ∧ p.height = n ∧ σ = (q.atHeight n, around) := by
  obtain ⟨op, scope⟩ := i
  have h := (if_pos (admits_of_scanStep h)).symm.trans h
  rcases Op.mark_cases hm with rfl | rfl | ⟨label, rfl⟩
  · cases h
  · cases h
  · cases label with
    | cond =>
      obtain ⟨heq, h⟩ := Option.ite_none_right_eq_some.mp h
      exact ⟨rfl, heq, (Option.some.inj h).symm⟩
    | _ => cases h

/-- The test of a loop leaves one value more than there were. -/
theorem scanStep_mark_test (hm : i.op.terminator?.isSome)
    (h : scanStep d (p, .test q :: around) i = some σ) :
    i.op = .loopBody ∧ p.height = q.height + 1 ∧ σ = (q.inLoop, .round q :: around) := by
  obtain ⟨op, scope⟩ := i
  have h := (if_pos (admits_of_scanStep h)).symm.trans h
  rcases Op.mark_cases hm with rfl | rfl | ⟨label, rfl⟩
  · cases h
  · obtain ⟨heq, h⟩ := Option.ite_none_right_eq_some.mp h
    exact ⟨rfl, heq, (Option.some.inj h).symm⟩
  · cases label <;> cases h

/-- The body of a loop leaves as many values as there were. -/
theorem scanStep_mark_round (hm : i.op.terminator?.isSome)
    (h : scanStep d (p, .round q :: around) i = some σ) :
    i.op = .endBlock .loop ∧ p.height = q.height ∧ σ = (q.atHeight q.height, around) := by
  obtain ⟨op, scope⟩ := i
  have h := (if_pos (admits_of_scanStep h)).symm.trans h
  rcases Op.mark_cases hm with rfl | rfl | ⟨label, rfl⟩
  · cases h
  · cases h
  · cases label with
    | loop =>
      obtain ⟨heq, h⟩ := Option.ite_none_right_eq_some.mp h
      exact ⟨rfl, heq, (Option.some.inj h).symm⟩
    | _ => cases h

/-- The body of a method leaves one value. -/
theorem scanStep_mark_method (hm : i.op.terminator?.isSome)
    (h : scanStep d (p, .method q :: around) i = some σ) :
    i.op = .endBlock .method ∧ p.height = 1 ∧ σ = (q.atHeight (q.height + 1), around) := by
  obtain ⟨op, scope⟩ := i
  have h := (if_pos (admits_of_scanStep h)).symm.trans h
  rcases Op.mark_cases hm with rfl | rfl | ⟨label, rfl⟩
  · cases h
  · cases h
  · cases label with
    | method =>
      obtain ⟨heq, h⟩ := Option.ite_none_right_eq_some.mp h
      exact ⟨rfl, heq, (Option.some.inj h).symm⟩
    | _ => cases h

theorem scanStep_mark_block (hm : i.op.terminator?.isSome)
    (h : scanStep d (p, .block q :: around) i = some σ) :
    i.op = .endBlock .block ∧ p.height = 1 ∧ σ = (q.behindBlock d.awaits, around) := by
  obtain ⟨op, scope⟩ := i
  have h := (if_pos (admits_of_scanStep h)).symm.trans h
  rcases Op.mark_cases hm with rfl | rfl | ⟨label, rfl⟩
  · cases h
  · cases h
  · cases label with
    | block =>
      obtain ⟨heq, h⟩ := Option.ite_none_right_eq_some.mp h
      exact ⟨rfl, heq, (Option.some.inj h).symm⟩
    | _ => cases h

/-! ## Derivations -/

/-- Code that leads from one point to another, with its blocks nested. -/
inductive Nested (d : Discipline) : Point → List Instruction → Point → Prop
  | nil (p : Point) : Nested d p [] p
  | plain {p q : Point} {i : Instruction} {rest : List Instruction} {taken left : Nat}
      (ha : d.admits p i = true) (he : i.op.effect? = some (taken, left)) (hh : taken ≤ p.height)
      (hr : Nested d (p.atHeight (p.height - taken + left)) rest q) : Nested d p (i :: rest) q
  | cond {p q y n : Point} {i j k : Instruction} {yes no rest : List Instruction}
      (ha : d.admits p i = true) (hi : i.op = .ifTrue) (hj : j.op = .orElse)
      (hk : k.op = .endBlock .cond) (hh : 0 < p.height)
      (hy : Nested d (p.atHeight (p.height - 1)) yes y)
      (hn : Nested d (p.atHeight (p.height - 1)) no n) (heq : n.height = y.height)
      (hr : Nested d (p.atHeight y.height) rest q) :
      Nested d p (i :: (yes ++ j :: (no ++ k :: rest))) q
  | loop {p q t b : Point} {i j k : Instruction} {test body rest : List Instruction}
      (ha : d.admits p i = true) (hi : i.op = .whileTrue) (hj : j.op = .loopBody)
      (hk : k.op = .endBlock .loop) (ht : Nested d p.inLoop test t)
      (htest : t.height = p.height + 1) (hb : Nested d p.inLoop body b)
      (hbody : b.height = p.height) (hr : Nested d (p.atHeight p.height) rest q) :
      Nested d p (i :: (test ++ j :: (body ++ k :: rest))) q
  | method {p q b : Point} {i k : Instruction} {name : String} {s : ScopeId}
      {body rest : List Instruction} (ha : d.admits p i = true) (hi : i.op = .defineMethod name s)
      (hk : k.op = .endBlock .method) (hb : Nested d (.start .method s) body b)
      (hbody : b.height = 1) (hr : Nested d (p.atHeight (p.height + 1)) rest q) :
      Nested d p (i :: (body ++ k :: rest)) q
  | block {p q b : Point} {i k : Instruction} {s : ScopeId} {body rest : List Instruction}
      (ha : d.admits p i = true) (hi : i.op = .defineBlock s) (hk : k.op = .endBlock .block)
      (hb : Nested d (.start .block s) body b) (hbody : b.height = 1)
      (hr : Nested d (p.behindBlock d.awaits) rest q) : Nested d p (i :: (body ++ k :: rest)) q

/-- What is left of code after its longest nested part: nothing, or a mark of an outer block. -/
def AtMark (code : List Instruction) : Prop :=
  code = [] ∨ ∃ i rest, code = i :: rest ∧ i.op.terminator?.isSome

/-- Inside an open block there is a mark to come when the block is closed in the end. -/
theorem AtMark.exists_mark {e : Enclosing} (hm : AtMark code)
    (h : scan d (p, e :: around) code = some σ) (hl : σ.2.length ≤ around.length) :
    ∃ i rest ρ, code = i :: rest ∧ i.op.terminator?.isSome ∧
      scanStep d (p, e :: around) i = some ρ ∧ scan d ρ rest = some σ := by
  rcases hm with rfl | ⟨i, rest, rfl, hi⟩
  · cases h
    simp only [List.length_cons] at hl
    omega
  · obtain ⟨ρ, h₁, h₂⟩ := scan_cons_eq_some h
    exact ⟨i, rest, ρ, rfl, hi, h₁, h₂⟩

/-- The instructions that open blocks, with the step that the scan makes there. -/
theorem scanStep_open (he : i.op.effect? = none) (hm : i.op.terminator? = none)
    (h : scanStep d (p, around) i = some σ) :
    (i.op = .ifTrue ∧ 0 < p.height ∧
      σ = (p.atHeight (p.height - 1), .yes (p.atHeight (p.height - 1)) :: around)) ∨
    (i.op = .whileTrue ∧ σ = (p.inLoop, .test p :: around)) ∨
    (∃ name s, i.op = .defineMethod name s ∧ σ = (.start .method s, .method p :: around)) ∨
    (∃ s, i.op = .defineBlock s ∧ σ = (.start .block s, .block p :: around)) := by
  have h := (if_pos (admits_of_scanStep h)).symm.trans h
  obtain ⟨op, scope⟩ := i
  cases op with
  | ifTrue =>
    obtain ⟨hne, h⟩ := Option.ite_none_left_eq_some.mp h
    exact Or.inl ⟨rfl, Nat.pos_of_ne_zero hne, (Option.some.inj h).symm⟩
  | whileTrue => exact Or.inr (Or.inl ⟨rfl, (Option.some.inj h).symm⟩)
  | defineMethod name s =>
    exact Or.inr (Or.inr (Or.inl ⟨name, s, rfl, (Option.some.inj h).symm⟩))
  | defineBlock s => exact Or.inr (Or.inr (Or.inr ⟨s, rfl, (Option.some.inj h).symm⟩))
  | orElse | loopBody | endBlock => cases hm
  | send =>
    -- A message whose operands cannot be counted opens nothing.
    rw [he] at h
    cases h
  | _ => cases he

/-- A scan of code shorter than `n` splits off the longest nested part. -/
def Splits (d : Discipline) (n : Nat) : Prop :=
  ∀ (code : List Instruction) (p : Point) (around : List Enclosing)
    (σ : Point × List Enclosing), code.length < n → scan d (p, around) code = some σ →
    σ.2.length ≤ around.length → ∃ body rest q, code = body ++ rest ∧ Nested d p body q ∧
      scan d (q, around) rest = some σ ∧ AtMark rest

/-- Inside an open block, a scan splits off the nested part up to the mark of that block. -/
theorem Splits.region {n : Nat} {e : Enclosing} (ih : Splits d n) (hlt : code.length < n)
    (h : scan d (p, e :: around) code = some σ) (hl : σ.2.length ≤ around.length) :
    ∃ body j rest q ρ, code = body ++ j :: rest ∧ Nested d p body q ∧ j.op.terminator?.isSome ∧
      scanStep d (q, e :: around) j = some ρ ∧ scan d ρ rest = some σ ∧ rest.length < n := by
  obtain ⟨body, r, q, rfl, hb, hs, hmark⟩ :=
    ih _ _ _ _ hlt h (Nat.le_succ_of_le hl)
  obtain ⟨j, rest, ρ, rfl, hj, hst, hrest⟩ := hmark.exists_mark hs hl
  refine ⟨body, j, rest, q, ρ, rfl, hb, hj, hst, hrest, ?_⟩
  simp only [List.length_append, List.length_cons] at hlt
  omega

/-- **A scan splits off the longest nested part.** The induction is on the length: a block that is
opened is split off first, up to its end, and then what follows it. -/
theorem splits (n : Nat) : Splits d n := by
  induction n with
  | zero => exact fun code _ _ _ hlt => absurd hlt (Nat.not_lt_zero code.length)
  | succ n ih =>
    intro code p around σ hlt h hl
    cases code with
    | nil => exact ⟨[], [], p, rfl, .nil p, h, Or.inl rfl⟩
    | cons i code =>
      have hlt : code.length < n := Nat.lt_of_succ_lt_succ hlt
      by_cases hm : i.op.terminator?.isSome
      · exact ⟨[], i :: code, p, rfl, .nil p, h, Or.inr ⟨i, code, rfl, hm⟩⟩
      obtain ⟨ρ, hstep, hrest⟩ := scan_cons_eq_some h
      have ha := admits_of_scanStep hstep
      cases he : i.op.effect? with
      | some e =>
        obtain ⟨taken, left⟩ := e
        obtain ⟨hh, rfl⟩ := scanStep_plain_eq_some he hstep
        obtain ⟨body, rest, q, rfl, hb, hs, hr⟩ := ih _ _ _ _ hlt hrest hl
        exact ⟨i :: body, rest, q, rfl, .plain ha he hh hb, hs, hr⟩
      | none =>
        rcases scanStep_open he (by simpa using hm) hstep with
          ⟨hi, hh, rfl⟩ | ⟨hi, rfl⟩ | ⟨name, s, hi, rfl⟩ | ⟨s, hi, rfl⟩
        · -- a conditional: two branches, then the rest
          obtain ⟨yes, j, r, y, _, rfl, hy, hj, hst, hs, hlt⟩ := ih.region hlt hrest hl
          obtain ⟨hj, rfl⟩ := scanStep_mark_yes hj hst
          obtain ⟨no, k, r, m, _, rfl, hn, hk, hst, hs, hlt⟩ := ih.region hlt hs hl
          obtain ⟨hk, heq, rfl⟩ := scanStep_mark_no hk hst
          obtain ⟨body, rest, q, rfl, hb, hs, hr⟩ := ih _ _ _ _ hlt hs hl
          exact ⟨i :: (yes ++ j :: (no ++ k :: body)), rest, q, by simp,
            .cond ha hi hj hk hh hy hn heq hb, hs, hr⟩
        · -- a loop: test and body, then the rest
          obtain ⟨test, j, r, t, _, rfl, ht, hj, hst, hs, hlt⟩ := ih.region hlt hrest hl
          obtain ⟨hj, htest, rfl⟩ := scanStep_mark_test hj hst
          obtain ⟨round, k, r, b, _, rfl, hb, hk, hst, hs, hlt⟩ := ih.region hlt hs hl
          obtain ⟨hk, hbody, rfl⟩ := scanStep_mark_round hk hst
          obtain ⟨body, rest, q, rfl, hr', hs, hr⟩ := ih _ _ _ _ hlt hs hl
          exact ⟨i :: (test ++ j :: (round ++ k :: body)), rest, q, by simp,
            .loop ha hi hj hk ht htest hb hbody hr', hs, hr⟩
        · obtain ⟨inner, k, r, b, _, rfl, hb, hk, hst, hs, hlt⟩ := ih.region hlt hrest hl
          obtain ⟨hk, hbody, rfl⟩ := scanStep_mark_method hk hst
          obtain ⟨body, rest, q, rfl, hr', hs, hr⟩ := ih _ _ _ _ hlt hs hl
          exact ⟨i :: (inner ++ k :: body), rest, q, by simp,
            .method ha hi hk hb hbody hr', hs, hr⟩
        · obtain ⟨inner, k, r, b, _, rfl, hb, hk, hst, hs, hlt⟩ := ih.region hlt hrest hl
          obtain ⟨hk, hbody, rfl⟩ := scanStep_mark_block hk hst
          obtain ⟨body, rest, q, rfl, hr', hs, hr⟩ := ih _ _ _ _ hlt hs hl
          exact ⟨i :: (inner ++ k :: body), rest, q, by simp,
            .block ha hi hk hb hbody hr', hs, hr⟩

/-- **Code that a scan reads to its end, with no block left open, is nested.** -/
theorem nested_of_scan (h : scan d (p, []) code = some (q, [])) : Nested d p code q := by
  obtain ⟨body, rest, q', rfl, hb, hs, hm⟩ :=
    splits (code.length + 1) code p [] (q, []) (by omega) h (by simp)
  rcases hm with rfl | ⟨i, rest', rfl, hi⟩
  · cases hs
    rwa [List.append_nil]
  · rw [scan_cons, scanStep_mark_nil hi] at hs
    cases hs

/-! ## Cutting blocks out -/

namespace Segment

variable {sought : Terminator} {label : Option BlockLabel} {index depth : Nat}
  {rest acc : List Instruction}

/-- An instruction that is no mark is passed over. -/
theorem splitBlock_pass (ht : i.op.terminator? = none) (ho : i.op.opens? = none) :
    splitBlock sought label index depth (i :: rest) acc =
      splitBlock sought label (index + 1) depth rest (i :: acc) := by
  have hl : i.op.label? = none := by
    cases hop : i.op with
    | endBlock =>
      rw [hop] at ht
      cases ht
    | _ => rfl
  simp [splitBlock, ht, ho, hl]

theorem splitBlock_open {l : BlockLabel} (ho : i.op.opens? = some l) :
    splitBlock sought label index depth (i :: rest) acc =
      splitBlock sought label (index + 1) (depth + 1) rest (i :: acc) := by
  have ht : i.op.terminator? = none := by
    cases hop : i.op with
    | orElse | loopBody | endBlock =>
      rw [hop] at ho
      cases ho
    | _ => rfl
  simp [splitBlock, ht, ho]

/-- A mark inside an open block that does not end it is passed. -/
theorem splitBlock_inner (hl : i.op.label? = none) (ho : i.op.opens? = none) :
    splitBlock sought label index (depth + 1) (i :: rest) acc =
      splitBlock sought label (index + 1) (depth + 1) rest (i :: acc) := by
  simp [splitBlock, hl, ho]

/-- The end of an inner block does not end the outer one. -/
theorem splitBlock_close {closed : BlockLabel} (hi : i.op = .endBlock closed) :
    splitBlock sought label index (depth + 1) (i :: rest) acc =
      splitBlock sought label (index + 1) depth rest (i :: acc) := by
  simp [splitBlock, hi, Op.opens?, Op.label?]

/-- At depth zero the mark is the one sought. -/
theorem splitBlock_found (ht : i.op.terminator? = some sought)
    (hl : ∀ l, label = some l → i.op.label? = some l) :
    splitBlock sought label index 0 (i :: rest) acc = .ok (acc.reverse, index, rest) := by
  cases label with
  | none => simp [splitBlock, ht]
  | some l => simp [splitBlock, ht, hl l rfl]

end Segment

theorem opens?_of_effect {e : Nat × Nat} {op : Op} (h : op.effect? = some e) : op.opens? = none := by
  cases op with
  | ifTrue | whileTrue | defineMethod | defineBlock => cases h
  | _ => rfl

/-- An instruction with an effect on operands is no mark. -/
theorem terminator?_of_effect {e : Nat × Nat} {op : Op} (h : op.effect? = some e) :
    op.terminator? = none := by
  cases op with
  | orElse | loopBody | endBlock => cases h
  | _ => rfl

open Segment in
/-- **The search for a mark passes nested code.** The blocks inside are opened and closed again, so
the depth behind the code is the depth before it. -/
theorem Nested.splitBlock (h : Nested d p code q) {sought : Terminator} {label : Option BlockLabel} :
    ∀ (index depth : Nat) (tail acc : List Instruction),
      splitBlock sought label index depth (code ++ tail) acc =
        splitBlock sought label (index + code.length) depth tail (code.reverse ++ acc) := by
  induction h with
  | nil p => intros; rfl
  | plain _ he _ _ ih =>
    intro index depth tail acc
    rw [List.cons_append, splitBlock_pass (terminator?_of_effect he) (opens?_of_effect he), ih]
    simp [Nat.add_assoc, Nat.add_comm 1]
  | @cond _ _ _ _ i j k yes no rest _ hi hj hk _ _ _ _ _ ihy ihn ihr =>
    intro index depth tail acc
    rw [List.cons_append, splitBlock_open (l := .cond) (by rw [hi]; rfl), List.append_assoc,
      ihy, List.cons_append, splitBlock_inner (by rw [hj]; rfl) (by rw [hj]; rfl),
      List.append_assoc, ihn, List.cons_append, splitBlock_close hk, ihr]
    simp [Nat.add_comm, Nat.add_left_comm]
  | @loop _ _ _ _ i j k test body rest _ hi hj hk _ _ _ _ _ iht ihb ihr =>
    intro index depth tail acc
    rw [List.cons_append, splitBlock_open (l := .loop) (by rw [hi]; rfl), List.append_assoc,
      iht, List.cons_append, splitBlock_inner (by rw [hj]; rfl) (by rw [hj]; rfl),
      List.append_assoc, ihb, List.cons_append, splitBlock_close hk, ihr]
    simp [Nat.add_comm, Nat.add_left_comm]
  | @method _ _ _ i k _ _ body rest _ hi hk _ _ _ ihb ihr =>
    intro index depth tail acc
    rw [List.cons_append, splitBlock_open (l := .method) (by rw [hi]; rfl),
      List.append_assoc, ihb, List.cons_append, splitBlock_close hk, ihr]
    simp [Nat.add_comm, Nat.add_left_comm]
  | @block _ _ _ i k _ body rest _ hi hk _ _ _ ihb ihr =>
    intro index depth tail acc
    rw [List.cons_append, splitBlock_open (l := .block) (by rw [hi]; rfl),
      List.append_assoc, ihb, List.cons_append, splitBlock_close hk, ihr]
    simp [Nat.add_comm, Nat.add_left_comm]

/-- **`takeBlock` cuts nested code at the mark behind it.** -/
theorem Nested.takeBlock (h : Nested d p code q) {sought : Terminator} {label : Option BlockLabel}
    {mark : Instruction} (ht : mark.op.terminator? = some sought)
    (hl : ∀ l, label = some l → mark.op.label? = some l) (start : Nat) (rest : List Instruction) :
    Segment.takeBlock ⟨start, code ++ mark :: rest⟩ sought label =
      .ok (⟨start, code⟩, ⟨start + code.length + 1, rest⟩) := by
  unfold Segment.takeBlock
  simp only [h.splitBlock, Segment.splitBlock_found ht hl]
  simp [bind, Except.bind, pure, Except.pure]

theorem Nested.takeBlock_orElse (h : Nested d p code q) {mark : Instruction}
    (hm : mark.op = .orElse) (start : Nat) (rest : List Instruction) :
    Segment.takeBlock ⟨start, code ++ mark :: rest⟩ .orElse none =
      .ok (⟨start, code⟩, ⟨start + code.length + 1, rest⟩) :=
  h.takeBlock (by rw [hm]; rfl) (by simp) start rest

theorem Nested.takeBlock_loopBody (h : Nested d p code q) {mark : Instruction}
    (hm : mark.op = .loopBody) (start : Nat) (rest : List Instruction) :
    Segment.takeBlock ⟨start, code ++ mark :: rest⟩ .loopBody none =
      .ok (⟨start, code⟩, ⟨start + code.length + 1, rest⟩) :=
  h.takeBlock (by rw [hm]; rfl) (by simp) start rest

/-- A body ends at the mark with its label. -/
theorem Nested.takeBlock_ending (h : Nested d p code q) {mark : Instruction} {label : BlockLabel}
    (hm : mark.op = .endBlock label) (start : Nat) (rest : List Instruction) :
    Segment.takeBlock ⟨start, code ++ mark :: rest⟩ .ending (some label) =
      .ok (⟨start, code⟩, ⟨start + code.length + 1, rest⟩) :=
  h.takeBlock (by rw [hm]; rfl) (by simp [hm, Op.label?]) start rest

/-! ## Heights -/

/-- A step that gave a result, and what followed it. -/
theorem bind_eq_ok {ε α β : Type} {x : Except ε α} {f : α → Except ε β} {b : β}
    (h : x >>= f = .ok b) : ∃ a, x = .ok a ∧ f a = .ok b := by
  cases x with
  | error e => cases h
  | ok a => exact ⟨a, rfl, h⟩

theorem mapError_ok {ε ε' α : Type} (f : ε → ε') (a : α) :
    (Except.ok a : Except ε α).mapError f = .ok a := rfl

/-- **The height check accepts nested code** and finds the height of the last point. -/
theorem Nested.heightWithin (h : Nested d p code q) : ∀ (n start : Nat), code.length ≤ n →
    Segment.heightWithin n ⟨start, code⟩ p.height = .ok q.height := by
  induction h with
  | nil p => intro n start _; cases n <;> rfl
  | @plain p q i rest taken left _ he hh _ ih =>
    intro n start hn
    obtain ⟨n, rfl⟩ : ∃ m, n = m + 1 := ⟨n - 1, by simp at hn; omega⟩
    simp only [Segment.heightWithin, he, Nat.not_lt.mpr hh, if_false]
    exact ih n (start + 1) (by simpa using hn)
  | @cond p q y n' i j k yes no rest _ hi hj hk hh hy hn' heq hr ihy ihn ihr =>
    intro n start hn
    obtain ⟨n, rfl⟩ : ∃ m, n = m + 1 := ⟨n - 1, by simp at hn; omega⟩
    simp only [List.length_cons, List.length_append] at hn
    have hcut₁ := hy.takeBlock_orElse hj (start + 1) (no ++ k :: rest)
    have hcut₂ := hn'.takeBlock_ending hk (start + 1 + yes.length + 1) rest
    have hyes := ihy n (start + 1) (by omega)
    have hno := ihn n (start + 1 + yes.length + 1) (by omega)
    have hrest := ihr n (start + 1 + yes.length + 1 + no.length + 1) (by omega)
    simp only [Point.atHeight_height] at hyes hno hrest
    simp [Segment.heightWithin, hi, Op.effect?, Nat.pos_iff_ne_zero.mp hh, hcut₁, hcut₂, hyes, hno,
      heq, hrest, bind, Except.bind, mapError_ok]
  | @loop p q t b i j k test body rest _ hi hj hk ht htest hb hbody hr iht ihb ihr =>
    intro n start hn
    obtain ⟨n, rfl⟩ : ∃ m, n = m + 1 := ⟨n - 1, by simp at hn; omega⟩
    simp only [List.length_cons, List.length_append] at hn
    have hcut₁ := ht.takeBlock_loopBody hj (start + 1) (body ++ k :: rest)
    have hcut₂ := hb.takeBlock_ending hk (start + 1 + test.length + 1) rest
    have htest' := iht n (start + 1) (by omega)
    have hbody' := ihb n (start + 1 + test.length + 1) (by omega)
    have hrest := ihr n (start + 1 + test.length + 1 + body.length + 1) (by omega)
    simp only [Point.atHeight_height, Point.inLoop_height] at htest' hbody' hrest
    simp [Segment.heightWithin, hi, Op.effect?, hcut₁, hcut₂, htest', hbody', htest, hbody,
      hrest, bind, Except.bind, mapError_ok]
  | @method p q b i k name s body rest _ hi hk hb hbody hr ihb ihr =>
    intro n start hn
    obtain ⟨n, rfl⟩ : ∃ m, n = m + 1 := ⟨n - 1, by simp at hn; omega⟩
    simp only [List.length_cons, List.length_append] at hn
    have hcut := hb.takeBlock_ending hk (start + 1) rest
    have hbody' := ihb n (start + 1) (by omega)
    have hrest := ihr n (start + 1 + body.length + 1) (by omega)
    simp only [Point.atHeight_height, Point.start_height] at hbody' hrest
    simp [Segment.heightWithin, hi, Op.effect?, Op.opens?, hcut, hbody', hbody, hrest, bind,
      Except.bind, mapError_ok]
  | @block p q b i k s body rest _ hi hk hb hbody hr ihb ihr =>
    intro n start hn
    obtain ⟨n, rfl⟩ : ∃ m, n = m + 1 := ⟨n - 1, by simp at hn; omega⟩
    simp only [List.length_cons, List.length_append] at hn
    have hcut := hb.takeBlock_ending hk (start + 1) rest
    have hbody' := ihb n (start + 1) (by omega)
    have hrest := ihr n (start + 1 + body.length + 1) (by omega)
    simp only [Point.start_height, Point.behindBlock] at hbody' hrest
    simp [Segment.heightWithin, hi, Op.effect?, Op.opens?, hcut, hbody', hbody, hrest, bind,
      Except.bind, mapError_ok]

/-- **Nested code passes the height check**, with the height of its derivation. -/
theorem Nested.checkHeights (h : Nested d p code q) (hp : p.height = 0) :
    checkHeights code q.height = .ok () := by
  have := h.heightWithin code.length 0 (Nat.le_refl _)
  rw [hp] at this
  simp [StackCode.checkHeights, Segment.height, this, bind, Except.bind, pure, Except.pure]

end StackCode
