import Mathlib.Control.Monad.Basic
import StackCode.Proofs.Nesting

/-!
# The heights that the check finds

`Segment.heights` is the height check with a record: it notes the height at every instruction that
it comes to. Without the record it is the check (`snd_heightsWithin`).

`Checked` is the derivation that a successful check follows. It shows that the record holds every
instruction but the marks once and in order (`Checked.places`), so that one can speak of the height
at an instruction, and that every body starts at height zero (`Checked.body_start`).
-/

namespace StackCode

variable {code : List Instruction}

namespace Segment

/-! ## Cutting blocks out -/

section

variable {sought : Terminator} {label : Option BlockLabel}

/-- The search for a mark ends at one. -/
theorem exists_mark_of_splitBlock {body rest acc : List Instruction} {index depth mark : Nat}
    (h : splitBlock sought label index depth code acc = .ok (body, mark, rest)) :
    ∃ pre i, code = pre ++ i :: rest ∧ body = acc.reverse ++ pre ∧ mark = index + pre.length ∧
      i.op.terminator? = some sought ∧ ∀ l, label = some l → i.op.label? = some l := by
  induction code generalizing index depth acc with
  | nil => cases h
  | cons i code ih =>
    -- an instruction that is passed
    have pass : ∀ {depth}, splitBlock sought label (index + 1) depth code (i :: acc) =
        .ok (body, mark, rest) → ∃ pre j, i :: code = pre ++ j :: rest ∧
          body = acc.reverse ++ pre ∧ mark = index + pre.length ∧
          j.op.terminator? = some sought ∧ ∀ l, label = some l → j.op.label? = some l := by
      intro depth h
      obtain ⟨pre, j, rfl, rfl, rfl, hj, hl⟩ := ih h
      refine ⟨i :: pre, j, rfl, by simp, ?_, hj, hl⟩
      rw [List.length_cons]
      omega
    unfold splitBlock at h
    split at h
    · rename_i hfound
      split at h
      · cases h
        exact ⟨[], i, rfl, by simp, rfl, hfound.2, nofun⟩
      · split at h
        · rename_i hlabel
          cases h
          exact ⟨[], i, rfl, by simp, rfl, hfound.2, fun _ hl => Option.some.inj hl ▸ hlabel⟩
        · cases h
    · split at h
      · exact pass h
      · split at h
        · cases h
        · exact pass h
        · exact pass h

/-- What `takeBlock` cuts is the segment. -/
theorem exists_mark_of_takeBlock {start : Nat} {body after : Segment}
    (h : takeBlock ⟨start, code⟩ sought label = .ok (body, after)) :
    ∃ i, code = body.code ++ i :: after.code ∧ i.op.terminator? = some sought ∧
      ∀ l, label = some l → i.op.label? = some l := by
  obtain ⟨⟨body, mark, rest⟩, hsplit, h⟩ := bind_eq_ok h
  cases h
  obtain ⟨pre, i, hcode, rfl, -, hi, hl⟩ := exists_mark_of_splitBlock hsplit
  exact ⟨i, hcode, hi, hl⟩

theorem length_of_takeBlock {start : Nat} {body after : Segment}
    (h : takeBlock ⟨start, code⟩ sought label = .ok (body, after)) :
    body.code.length + after.code.length < code.length := by
  obtain ⟨i, rfl, -⟩ := exists_mark_of_takeBlock h
  simp only [List.length_append, List.length_cons]
  omega

/-- What holds of all instructions holds of those of the parts. -/
theorem forall_mem_of_takeBlock {P : Instruction → Prop} {s body after : Segment}
    (h : s.takeBlock sought label = .ok (body, after)) (hs : ∀ i ∈ s.code, P i) :
    (∀ i ∈ body.code, P i) ∧ ∀ i ∈ after.code, P i := by
  obtain ⟨start, code⟩ := s
  obtain ⟨mark, rfl, -⟩ := exists_mark_of_takeBlock h
  obtain ⟨hbody, hrest⟩ := List.forall_mem_append.mp hs
  exact ⟨hbody, (List.forall_mem_cons.mp hrest).2⟩

/-- The parts that `takeBlock` gives stand where they stood. -/
theorem start_of_takeBlock {s body after : Segment}
    (h : s.takeBlock sought label = .ok (body, after)) :
    body.start = s.start ∧ after.start = s.start + body.code.length + 1 := by
  obtain ⟨⟨body, mark, rest⟩, hsplit, h⟩ := bind_eq_ok h
  cases h
  obtain ⟨pre, i, -, rfl, rfl, -⟩ := exists_mark_of_splitBlock hsplit
  exact ⟨rfl, rfl⟩

end

/-! ## The record -/

/-- The height check with a record: the instructions that it comes to, each with the height there,
and the height in the end. -/
def heightsWithin : Nat → Segment → Nat → Except HeightError (List (Nat × Nat) × Nat)
  | 0, _, h => .ok ([], h)
  | _ + 1, ⟨_, []⟩, h => .ok ([], h)
  | n + 1, ⟨index, i :: rest⟩, h =>
    let after : Segment := ⟨index + 1, rest⟩
    match i.op.effect? with
    | some (taken, left) =>
      if h < taken then .error (.ofCause index (.underflow i.op taken h))
      else do
        let (later, last) ← heightsWithin n after (h - taken + left)
        return ((index, h) :: later, last)
    | none =>
      match i.op with
      | .ifTrue =>
        if h = 0 then .error (.ofCause index .outOfStack)
        else do
          let (yes, after) ← (after.takeBlock .orElse none).mapError .malformed
          let (no, after) ← (after.takeBlock .ending (some .cond)).mapError .malformed
          let (inYes, yesHeight) ← heightsWithin n yes (h - 1)
          let (inNo, noHeight) ← heightsWithin n no (h - 1)
          if yesHeight ≠ noHeight then throw (.ofCause index (.unevenBranches yesHeight noHeight))
          let (later, last) ← heightsWithin n after yesHeight
          return ((index, h) :: (inYes ++ inNo ++ later), last)
      | .whileTrue => do
        let (test, after) ← (after.takeBlock .loopBody none).mapError .malformed
        let (body, after) ← (after.takeBlock .ending (some .loop)).mapError .malformed
        let (inTest, testHeight) ← heightsWithin n test h
        if testHeight ≠ h + 1 then throw (.ofCause index .conditionHeight)
        let (inBody, bodyHeight) ← heightsWithin n body h
        if bodyHeight ≠ h then throw (.ofCause index .loopHeight)
        let (later, last) ← heightsWithin n after h
        return ((index, h) :: (inTest ++ inBody ++ later), last)
      | .defineMethod .. | .defineBlock _ => do
        let label := i.op.opens?.getD .method
        let (body, after) ← (after.takeBlock .ending (some label)).mapError .malformed
        let (inBody, bodyHeight) ← heightsWithin n body 0
        if bodyHeight ≠ 1 then throw (.ofCause index (.bodyHeight label bodyHeight))
        let (later, last) ← heightsWithin n after (h + 1)
        return ((index, h) :: (inBody ++ later), last)
      | .send .. => .error (.countOverflow i.op)
      | op => .error (.ofCause index (.stray op))

/-- The heights in the segment, which starts at height `h`, and the height after it. -/
def heights (s : Segment) (h : Nat) : Except HeightError (List (Nat × Nat) × Nat) :=
  s.heightsWithin s.code.length h

/-- Without its record the check with a record is the check. -/
theorem snd_heightsWithin (n : Nat) : ∀ (s : Segment) (h : Nat),
    Prod.snd <$> heightsWithin n s h = heightWithin n s h := by
  induction n with
  | zero => exact fun _ _ => rfl
  | succ n ih =>
    intro ⟨index, code⟩ h
    cases code with
    | nil => rfl
    | cons i rest =>
      obtain ⟨op, scope⟩ := i
      unfold heightWithin heightsWithin
      simp only [← ih]
      cases he : op.effect? with
      | some e =>
        simp only [apply_ite (Prod.snd <$> ·), Except.map_error, bind_pure_comp, Functor.map_map]
      | none =>
        cases op with
        | ifTrue | whileTrue | defineMethod name s | defineBlock s =>
          simp only [apply_ite (Prod.snd <$> ·), Except.map_error, map_bind, bind_pure_comp,
            bind_map_left, Functor.map_map]
        | send message argc receiver withBlock => rfl
        | orElse | loopBody | endBlock label => rfl
        | _ => cases he

end Segment

/-! ## Successful checks -/

/-- A check that was passed, and what followed it. -/
theorem of_guard {ε α β : Type} [DecidableEq β] {b c : β} {e : ε} {x : Except ε α} {a : α}
    (h : (if b ≠ c then throw e >>= fun _ : PUnit => x else x) = .ok a) : b = c ∧ x = .ok a := by
  split at h
  · cases h
  · rename_i heq
    exact ⟨Decidable.not_not.mp heq, h⟩

theorem eq_ok_of_mapError {ε ε' α : Type} {x : Except ε α} {f : ε → ε'} {a : α}
    (h : x.mapError f = .ok a) : x = .ok a := by
  cases x with
  | error e => cases h
  | ok b =>
    cases h
    rfl

/-- The check goes through the segment from height `h`, finds the heights of the record on its way,
and ends at the last height. -/
inductive Checked : Segment → Nat → List (Nat × Nat) → Nat → Prop
  | nil (start h : Nat) : Checked ⟨start, []⟩ h [] h
  | plain {start h taken left last : Nat} {i : Instruction} {rest : List Instruction}
      {later : List (Nat × Nat)} (he : i.op.effect? = some (taken, left)) (hh : taken ≤ h)
      (hr : Checked ⟨start + 1, rest⟩ (h - taken + left) later last) :
      Checked ⟨start, i :: rest⟩ h ((start, h) :: later) last
  | cond {start h m last : Nat} {i : Instruction} {rest : List Instruction}
      {yes mid no after : Segment} {inYes inNo later : List (Nat × Nat)} (hi : i.op = .ifTrue)
      (hcut : Segment.takeBlock ⟨start + 1, rest⟩ .orElse none = .ok (yes, mid))
      (hcut' : mid.takeBlock .ending (some .cond) = .ok (no, after)) (hy : Checked yes h inYes m)
      (hn : Checked no h inNo m) (hr : Checked after m later last) :
      Checked ⟨start, i :: rest⟩ (h + 1) ((start, h + 1) :: (inYes ++ inNo ++ later)) last
  | loop {start h last : Nat} {i : Instruction} {rest : List Instruction}
      {test mid body after : Segment} {inTest inBody later : List (Nat × Nat)}
      (hi : i.op = .whileTrue)
      (hcut : Segment.takeBlock ⟨start + 1, rest⟩ .loopBody none = .ok (test, mid))
      (hcut' : mid.takeBlock .ending (some .loop) = .ok (body, after))
      (ht : Checked test h inTest (h + 1)) (hb : Checked body h inBody h)
      (hr : Checked after h later last) :
      Checked ⟨start, i :: rest⟩ h ((start, h) :: (inTest ++ inBody ++ later)) last
  | method {start h last : Nat} {i : Instruction} {rest : List Instruction} {name : String}
      {s : ScopeId} {body after : Segment} {inBody later : List (Nat × Nat)}
      (hi : i.op = .defineMethod name s)
      (hcut : Segment.takeBlock ⟨start + 1, rest⟩ .ending (some .method) = .ok (body, after))
      (hb : Checked body 0 inBody 1) (hr : Checked after (h + 1) later last) :
      Checked ⟨start, i :: rest⟩ h ((start, h) :: (inBody ++ later)) last
  | block {start h last : Nat} {i : Instruction} {rest : List Instruction} {s : ScopeId}
      {body after : Segment} {inBody later : List (Nat × Nat)} (hi : i.op = .defineBlock s)
      (hcut : Segment.takeBlock ⟨start + 1, rest⟩ .ending (some .block) = .ok (body, after))
      (hb : Checked body 0 inBody 1) (hr : Checked after (h + 1) later last) :
      Checked ⟨start, i :: rest⟩ h ((start, h) :: (inBody ++ later)) last

open Segment in
/-- **A check that succeeds follows a derivation.** -/
theorem checked_of_heightsWithin (n : Nat) : ∀ {s : Segment} {h last : Nat}
    {record : List (Nat × Nat)}, s.code.length ≤ n →
      heightsWithin n s h = .ok (record, last) → Checked s h record last := by
  induction n with
  | zero =>
    intro ⟨start, code⟩ h last record hn hh
    obtain rfl := List.eq_nil_of_length_eq_zero (Nat.le_zero.mp hn)
    cases hh
    exact .nil start h
  | succ n ih =>
    intro ⟨start, code⟩ h last record hn hh
    cases code with
    | nil =>
      cases hh
      exact .nil start h
    | cons i rest =>
      have hn : rest.length ≤ n := Nat.le_of_succ_le_succ hn
      unfold heightsWithin at hh
      dsimp only at hh
      split at hh
      · rename_i taken left he
        split at hh
        · cases hh
        · rename_i hlt
          obtain ⟨⟨later, last⟩, hrest, hh⟩ := bind_eq_ok hh
          cases hh
          exact .plain he (Nat.le_of_not_lt hlt) (ih hn hrest)
      · split at hh
        · rename_i hi
          split at hh
          · cases hh
          · rename_i hne
            obtain ⟨⟨yes, mid⟩, hcut, hh⟩ := bind_eq_ok hh
            obtain ⟨⟨no, after⟩, hcut', hh⟩ := bind_eq_ok hh
            have hcut := eq_ok_of_mapError hcut
            have hcut' := eq_ok_of_mapError hcut'
            obtain ⟨⟨inYes, yesHeight⟩, hyes, hh⟩ := bind_eq_ok hh
            obtain ⟨⟨inNo, noHeight⟩, hno, hh⟩ := bind_eq_ok hh
            obtain ⟨heq, hh⟩ := of_guard hh
            obtain ⟨⟨later, last⟩, hrest, hh⟩ := bind_eq_ok hh
            cases hh
            obtain rfl : yesHeight = noHeight := heq
            obtain ⟨h, rfl⟩ : ∃ m, h = m + 1 := ⟨h - 1, by omega⟩
            have hmid := length_of_takeBlock hcut
            have hafter := length_of_takeBlock hcut'
            exact .cond hi hcut hcut' (ih (by omega) hyes) (ih (by omega) hno)
              (ih (by omega) hrest)
        · rename_i hi
          obtain ⟨⟨test, mid⟩, hcut, hh⟩ := bind_eq_ok hh
          obtain ⟨⟨body, after⟩, hcut', hh⟩ := bind_eq_ok hh
          have hcut := eq_ok_of_mapError hcut
          have hcut' := eq_ok_of_mapError hcut'
          obtain ⟨⟨inTest, testHeight⟩, htest, hh⟩ := bind_eq_ok hh
          obtain ⟨htestEq, hh⟩ := of_guard hh
          obtain ⟨⟨inBody, bodyHeight⟩, hbody, hh⟩ := bind_eq_ok hh
          obtain ⟨hbodyEq, hh⟩ := of_guard hh
          obtain ⟨⟨later, last⟩, hrest, hh⟩ := bind_eq_ok hh
          cases hh
          obtain rfl : testHeight = h + 1 := htestEq
          obtain rfl : bodyHeight = h := hbodyEq
          have hmid := length_of_takeBlock hcut
          have hafter := length_of_takeBlock hcut'
          exact .loop hi hcut hcut' (ih (by omega) htest) (ih (by omega) hbody)
            (ih (by omega) hrest)
        · rename_i name s hi
          obtain ⟨⟨body, after⟩, hcut, hh⟩ := bind_eq_ok hh
          obtain ⟨⟨inBody, bodyHeight⟩, hbody, hh⟩ := bind_eq_ok hh
          obtain ⟨hbodyEq, hh⟩ := of_guard hh
          obtain ⟨⟨later, last⟩, hrest, hh⟩ := bind_eq_ok hh
          cases hh
          obtain rfl : bodyHeight = 1 := hbodyEq
          have hcut := eq_ok_of_mapError hcut
          rw [hi] at hcut
          have hafter := length_of_takeBlock hcut
          exact .method hi hcut (ih (by omega) hbody) (ih (by omega) hrest)
        · rename_i s hi
          obtain ⟨⟨body, after⟩, hcut, hh⟩ := bind_eq_ok hh
          obtain ⟨⟨inBody, bodyHeight⟩, hbody, hh⟩ := bind_eq_ok hh
          obtain ⟨hbodyEq, hh⟩ := of_guard hh
          obtain ⟨⟨later, last⟩, hrest, hh⟩ := bind_eq_ok hh
          cases hh
          obtain rfl : bodyHeight = 1 := hbodyEq
          have hcut := eq_ok_of_mapError hcut
          rw [hi] at hcut
          have hafter := length_of_takeBlock hcut
          exact .block hi hcut (ih (by omega) hbody) (ih (by omega) hrest)
        · cases hh
        · cases hh

theorem exists_checked_of_heightWithin {s : Segment} {h last : Nat}
    (hh : s.heightWithin s.code.length h = .ok last) :
    ∃ record, s.heights h = .ok (record, last) ∧ Checked s h record last := by
  rw [← Segment.snd_heightsWithin] at hh
  cases hrecord : s.heightsWithin s.code.length h with
  | error e =>
    rw [hrecord] at hh
    cases hh
  | ok result =>
    rw [hrecord] at hh
    cases hh
    exact ⟨result.1, hrecord, checked_of_heightsWithin _ (Nat.le_refl _) hrecord⟩

/-! ## Records -/

namespace Op

/-- Whether the operation is no mark. -/
def isStep (op : Op) : Bool := op.terminator?.isNone

/-- Whether the operation defines a body. -/
def opensBody (op : Op) : Bool := op.bodyScope?.isSome

end Op

/-- The places of the instructions with `p`, in code that starts at `start`. -/
def placesFrom (p : Op → Bool) (start : Nat) : List Instruction → List Nat
  | [] => []
  | i :: rest =>
    if p i.op then start :: placesFrom p (start + 1) rest else placesFrom p (start + 1) rest

section

variable {p : Op → Bool}

theorem placesFrom_cons_of_pos {i : Instruction} (hi : p i.op = true) (start : Nat)
    (rest : List Instruction) :
    placesFrom p start (i :: rest) = start :: placesFrom p (start + 1) rest :=
  if_pos hi

theorem placesFrom_cons_of_neg {i : Instruction} (hi : p i.op = false) (start : Nat)
    (rest : List Instruction) : placesFrom p start (i :: rest) = placesFrom p (start + 1) rest :=
  if_neg (by rw [hi]; exact Bool.false_ne_true)

theorem mem_placesFrom {start k : Nat} {i : Instruction} (hk : code[k]? = some i)
    (hi : p i.op = true) : start + k ∈ placesFrom p start code := by
  induction code generalizing start k with
  | nil => cases hk
  | cons j rest ih =>
    cases k with
    | zero =>
      cases hk
      rw [placesFrom_cons_of_pos hi]
      exact List.mem_cons_self ..
    | succ k =>
      have hmem : start + 1 + k ∈ placesFrom p (start + 1) rest := ih hk
      rw [placesFrom, show start + (k + 1) = start + 1 + k by omega]
      split
      · exact List.mem_cons_of_mem _ hmem
      · exact hmem

theorem placesFrom_append (start : Nat) (a b : List Instruction) :
    placesFrom p start (a ++ b) = placesFrom p start a ++ placesFrom p (start + a.length) b := by
  induction a generalizing start with
  | nil => rfl
  | cons i a ih =>
    have hstart : start + 1 + a.length = start + (i :: a).length := by
      rw [List.length_cons]
      omega
    simp only [List.cons_append, placesFrom, ih, hstart]
    split <;> rfl

/-- The places in a segment are those in the parts that are cut out of it. -/
theorem placesFrom_takeBlock {s body after : Segment} {sought : Terminator}
    {label : Option BlockLabel} (hp : ∀ op : Op, op.terminator?.isSome → p op = false)
    (h : s.takeBlock sought label = .ok (body, after)) :
    placesFrom p s.start s.code =
      placesFrom p body.start body.code ++ placesFrom p after.start after.code := by
  obtain ⟨hbody, hafter⟩ := Segment.start_of_takeBlock h
  obtain ⟨start, code⟩ := s
  obtain ⟨i, rfl, hi, -⟩ := Segment.exists_mark_of_takeBlock h
  rw [placesFrom_append, hbody, hafter, placesFrom_cons_of_neg (hp i.op (by rw [hi]; rfl))]

theorem placesFrom_takeBlocks {s a mid b after : Segment} {sought sought' : Terminator}
    {label label' : Option BlockLabel} (hp : ∀ op : Op, op.terminator?.isSome → p op = false)
    (h : s.takeBlock sought label = .ok (a, mid))
    (h' : mid.takeBlock sought' label' = .ok (b, after)) :
    placesFrom p s.start s.code = placesFrom p a.start a.code ++ placesFrom p b.start b.code ++
      placesFrom p after.start after.code := by
  rw [placesFrom_takeBlock hp h, placesFrom_takeBlock hp h', List.append_assoc]

end

namespace Op

theorem isStep_of_mark (op : Op) (h : op.terminator?.isSome) : op.isStep = false := by
  simp [isStep, h]

theorem opensBody_of_mark (op : Op) (h : op.terminator?.isSome) : op.opensBody = false := by
  rcases mark_cases h with rfl | rfl | ⟨label, rfl⟩ <;> rfl

theorem isStep_of_effect {op : Op} {taken left : Nat} (h : op.effect? = some (taken, left)) :
    op.isStep = true := by
  cases op with
  | orElse | loopBody | endBlock => cases h
  | _ => rfl

theorem opensBody_of_effect {op : Op} {taken left : Nat} (h : op.effect? = some (taken, left)) :
    op.opensBody = false := by
  cases op with
  | defineMethod | defineBlock => cases h
  | _ => rfl

end Op

variable {s : Segment} {h last : Nat} {record : List (Nat × Nat)}

/-- **The record holds every instruction but the marks**, once and in order. -/
theorem Checked.places (hc : Checked s h record last) :
    record.map Prod.fst = placesFrom Op.isStep s.start s.code := by
  induction hc with
  | nil => rfl
  | plain he _ _ ih => rw [List.map_cons, ih, placesFrom_cons_of_pos (Op.isStep_of_effect he)]
  | cond hi hcut hcut' _ _ _ ih ih' ihr | loop hi hcut hcut' _ _ _ ih ih' ihr =>
    have hparts := placesFrom_takeBlocks Op.isStep_of_mark hcut hcut'
    rw [placesFrom_cons_of_pos (by rw [hi]; rfl), List.map_cons, List.map_append, List.map_append,
      ih, ih', ihr]
    exact congrArg _ hparts.symm
  | method hi hcut _ _ ihb ihr | block hi hcut _ _ ihb ihr =>
    have hparts := placesFrom_takeBlock Op.isStep_of_mark hcut
    rw [placesFrom_cons_of_pos (by rw [hi]; rfl), List.map_cons, List.map_append, ihb, ihr]
    exact congrArg _ hparts.symm

/-- A body is not empty, and its first instruction is recorded at height zero. -/
theorem Checked.start_mem (hc : Checked s 0 record 1) : (s.start, 0) ∈ record := by
  cases hc <;> exact List.mem_cons_self ..

/-- **Every body starts at height zero.** -/
theorem Checked.body_start (hc : Checked s h record last) :
    ∀ k ∈ placesFrom Op.opensBody s.start s.code, (k + 1, 0) ∈ record := by
  induction hc with
  | nil => exact fun _ hk => nomatch hk
  | plain he _ _ ih =>
    intro k hk
    rw [placesFrom_cons_of_neg (Op.opensBody_of_effect he)] at hk
    exact List.mem_cons_of_mem _ (ih k hk)
  | cond hi hcut hcut' _ _ _ ih ih' ihr | loop hi hcut hcut' _ _ _ ih ih' ihr =>
    have hparts := placesFrom_takeBlocks Op.opensBody_of_mark hcut hcut'
    intro k hk
    rw [placesFrom_cons_of_neg (by rw [hi]; rfl)] at hk
    have hk : k ∈ _ := hparts ▸ hk
    simp only [List.mem_append, List.mem_cons] at hk ⊢
    rcases hk with (hk | hk) | hk
    · exact .inr (.inl (.inl (ih k hk)))
    · exact .inr (.inl (.inr (ih' k hk)))
    · exact .inr (.inr (ihr k hk))
  | method hi hcut hb _ ihb ihr | block hi hcut hb _ ihb ihr =>
    have hparts := placesFrom_takeBlock Op.opensBody_of_mark hcut
    have hstart := hb.start_mem
    rw [(Segment.start_of_takeBlock hcut).1] at hstart
    intro k hk
    rw [placesFrom_cons_of_pos (by rw [hi]; rfl)] at hk
    simp only [List.mem_append, List.mem_cons]
    rcases List.mem_cons.mp hk with rfl | hk
    · exact .inr (.inl hstart)
    · have hk : k ∈ _ := hparts ▸ hk
      rcases List.mem_append.mp hk with hk | hk
      · exact .inr (.inl (ihb k hk))
      · exact .inr (.inr (ihr k hk))

end StackCode
