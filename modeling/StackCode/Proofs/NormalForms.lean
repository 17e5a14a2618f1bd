import StackCode.Proofs.Rewriting

/-!
# Normal forms of the passes

A pass compares each instruction only with the end of what it has kept, and a replacement shortens
what is kept. A replacement could thus uncover something that the pass has gone past. It never does:
what is kept is in normal form all along (`Normal`), because every rule ends with the instruction
that is taken in, and what a replacement leaves at the end never ends a rule.

So one sweep is enough: what a pass makes is in normal form (`normal_foldConstants`,
`normal_dropUnused`), and code in normal form is left as it is (`foldl_of_normal`).
-/

namespace StackCode

/-- No rule applies anywhere in the code. -/
def Normal (rule : List Instruction → List Instruction → Prop) (code : List Instruction) : Prop :=
  ∀ old new, rule old new → ¬ old <:+: code

section

variable {rule : List Instruction → List Instruction → Prop} {code code' kept : List Instruction}
  {i : Instruction}

theorem normal_nil (hrule : ∀ old new, rule old new → old ≠ []) : Normal rule [] :=
  fun old new hr hold => hrule old new hr (List.infix_nil.mp hold)

theorem Normal.of_infix (h : Normal rule code) (hpart : code' <:+: code) : Normal rule code' :=
  fun old new hr hold => h old new hr (hold.trans hpart)

/-- An instruction at the end can only bring about a rule that ends with it. -/
theorem Normal.concat (h : Normal rule code)
    (hend : ∀ old new, rule old new → ¬ old <:+ code ++ [i]) : Normal rule (code ++ [i]) := by
  intro old new hr hold
  rcases List.infix_concat_iff.mp hold with hold | hold
  · exact hend old new hr hold
  · exact h old new hr hold

theorem Contracts.not_normal (h : Contracts rule code code') : ¬ Normal rule code := by
  obtain ⟨pre, post, hr⟩ := h
  intro hn
  exact hn _ _ hr ⟨pre, post, List.append_assoc ..⟩

/-! ## Sweeps -/

variable {step : List Instruction → Instruction → List Instruction}

/-- What a sweep keeps is in normal form, when each of its steps leaves it so. -/
theorem normal_foldl
    (hstep : ∀ kept i, Normal rule kept.reverse → Normal rule (step kept i).reverse) :
    ∀ (code kept : List Instruction), Normal rule kept.reverse →
      Normal rule (code.foldl step kept).reverse := by
  intro code
  induction code with
  | nil => exact fun kept h => h
  | cons i rest ih => exact fun kept h => ih (step kept i) (hstep kept i h)

/-- A sweep that changes code by its rules only takes in code in normal form as it is. -/
theorem foldl_of_normal (hstep : ∀ kept i, step kept i = i :: kept ∨
      Contracts rule (kept.reverse ++ [i]) (step kept i).reverse) :
    ∀ (code kept : List Instruction), Normal rule (kept.reverse ++ code) →
      code.foldl step kept = code.reverse ++ kept := by
  intro code
  induction code with
  | nil => intros; rfl
  | cons i rest ih =>
    intro kept h
    have hsplit : kept.reverse ++ i :: rest = kept.reverse ++ [i] ++ rest := by simp
    rw [hsplit] at h
    have hread : Normal rule (kept.reverse ++ [i]) := h.of_infix (List.prefix_append _ _).isInfix
    have hi : step kept i = i :: kept :=
      (hstep kept i).resolve_right fun hc => hc.not_normal hread
    rw [List.foldl_cons, hi, ih (i :: kept) (by rwa [List.reverse_cons])]
    simp

/-- The end of the code read so far, with its last instruction first. -/
theorem reverse_prefix_of_suffix {old : List Instruction} (h : old <:+ kept.reverse ++ [i]) :
    old.reverse <+: i :: kept := by
  rw [← List.reverse_cons] at h
  simpa using List.reverse_prefix.mpr h

end

variable {code kept kept' : List Instruction} {i : Instruction}

/-! ## Removing unused values -/

namespace Peephole

/-- Every rule ends with the pop that it removes, and what stands before the pop lets it go. -/
theorem absorb?_of_rule {old new : List Instruction} (hr : Rule old new)
    (hend : old <:+ kept.reverse ++ [i]) : i.op = .pop ∧ absorb? kept ≠ none := by
  have hfront := reverse_prefix_of_suffix hend
  cases hr with
  | push hpush hpop =>
    obtain ⟨rest, heq⟩ := hfront
    cases heq
    exact ⟨hpop, by simp [absorb?, hpush]⟩
  | dup hdup hpop =>
    obtain ⟨rest, heq⟩ := hfront
    cases heq
    exact ⟨hpop, by simp [absorb?, hdup]⟩
  | @store d s j hdup hstore hpop =>
    obtain ⟨rest, heq⟩ := hfront
    cases heq
    refine ⟨hpop, ?_⟩
    show absorb? (s :: d :: rest) ≠ none
    rw [absorb?_store hstore, if_pos hdup]
    exact Option.some_ne_none _

theorem normal_absorb? (h : Normal Rule kept.reverse) (ha : absorb? kept = some kept') :
    Normal Rule kept'.reverse := by
  rcases absorb?_eq_some ha with ⟨last, -, rfl⟩ | ⟨last, before, rest, hs, -, rfl, rfl⟩
  · rw [List.reverse_cons] at h
    exact h.of_infix (List.prefix_append _ _).isInfix
  · have hrest : Normal Rule rest.reverse := by
      rw [List.reverse_cons, List.reverse_cons, List.append_assoc] at h
      exact h.of_infix (List.prefix_append _ _).isInfix
    rw [List.reverse_cons]
    refine hrest.concat fun old new hr hend => ?_
    -- a store is no pop
    have hpop := (absorb?_of_rule hr hend).1
    rw [hpop] at hs
    cases hs

theorem normal_step (kept : List Instruction) (i : Instruction) (h : Normal Rule kept.reverse) :
    Normal Rule (step kept i).reverse := by
  have htaken (hstays : i.op = .pop → absorb? kept = none) :
      Normal Rule (i :: kept).reverse := by
    rw [List.reverse_cons]
    refine h.concat fun old new hr hend => ?_
    obtain ⟨hpop, hsome⟩ := absorb?_of_rule hr hend
    exact hsome (hstays hpop)
  unfold step
  split
  · cases ha : absorb? kept with
    | none => exact htaken fun _ => ha
    | some kept' => exact normal_absorb? h ha
  · rename_i hpop
    exact htaken fun h => absurd h hpop

end Peephole

/-- **What the removal of unused values makes is in normal form.** -/
theorem normal_dropUnused (code : List Instruction) : Normal Peephole.Rule (dropUnused code) :=
  normal_foldl Peephole.normal_step code []
    (normal_nil fun _ _ hr => by cases hr <;> exact List.cons_ne_nil _ _)

theorem dropUnused_of_normal (h : Normal Peephole.Rule code) : dropUnused code = code := by
  unfold dropUnused
  rw [foldl_of_normal Peephole.step_cases code [] h]
  simp

/-! ## Folding constants -/

namespace Fold

/-- Every rule ends with the operator that it removes, and the operator folds. -/
theorem result?_of_rule {old new : List Instruction} (hr : Rule old new)
    (hend : old <:+ kept.reverse ++ [i]) :
    (∃ message, i.op = .send message 1 true false) ∧ result? kept i ≠ none := by
  have hfront := reverse_prefix_of_suffix hend
  obtain ⟨hv, hop⟩ := hr
  obtain ⟨rest, heq⟩ := hfront
  cases heq
  exact ⟨⟨_, rfl⟩, by simp [result?, hv, hop]⟩

theorem constant?_ne_send {v : Value} {op : Op} (h : constant? v = some op) (message : String) :
    op ≠ .send message 1 true false := by
  rintro rfl
  have heffect := effect?_constant h
  cases heffect

theorem normal_step (kept : List Instruction) (i : Instruction) (h : Normal Rule kept.reverse) :
    Normal Rule (step kept i).reverse := by
  unfold step
  cases hr : result? kept i with
  | none =>
    show Normal Rule (i :: kept).reverse
    rw [List.reverse_cons]
    exact h.concat fun old new hrule hend => (result?_of_rule hrule hend).2 hr
  | some op =>
    obtain ⟨a, sa, b, sb, rest, message, v, rfl, -, -, hop⟩ := result?_eq_some hr
    show Normal Rule (⟨op, i.scope⟩ :: rest).reverse
    have hrest : Normal Rule rest.reverse := by
      rw [List.reverse_cons, List.reverse_cons, List.append_assoc] at h
      exact h.of_infix (List.prefix_append _ _).isInfix
    rw [List.reverse_cons]
    refine hrest.concat fun old new hrule hend => ?_
    -- a constant is no operator
    obtain ⟨⟨message', hsend⟩, -⟩ := result?_of_rule hrule hend
    exact constant?_ne_send hop message' hsend

theorem exists_constant? {message : String} {a b : Int64} {v : Value}
    (h : foldInts? message a b = some v) : ∃ op, constant? v = some op := by
  obtain ⟨op, -, hv⟩ := Option.bind_eq_some_iff.mp h
  cases op with
  | div | mod =>
    simp only [IntOp.eval?] at hv
    split at hv
    · cases hv
    · cases hv
      exact ⟨_, rfl⟩
  | _ =>
    cases hv
    exact ⟨_, rfl⟩

end Fold

/-- **What constant folding makes is in normal form.** -/
theorem normal_foldConstants (code : List Instruction) : Normal Fold.Rule (foldConstants code) :=
  normal_foldl Fold.normal_step code []
    (normal_nil fun _ _ hr => by cases hr; exact List.cons_ne_nil _ _)

theorem foldConstants_of_normal (h : Normal Fold.Rule code) : foldConstants code = code := by
  unfold foldConstants
  rw [foldl_of_normal Fold.step_cases code [] h]
  simp

/-! ## One sweep is enough -/

/-- **Each pass reaches its normal form in one sweep.** A second sweep changes nothing, and the code
holds nothing that the pass could still take away. -/
theorem one_sweep_is_enough (code : List Instruction) :
    foldConstants (foldConstants code) = foldConstants code ∧
    dropUnused (dropUnused code) = dropUnused code ∧
    (¬ ∃ a b message sa sb s, (foldInts? message a b).isSome = true ∧
      [⟨.pushInt a, sa⟩, ⟨.pushInt b, sb⟩, ⟨.send message 1 true false, s⟩] <:+:
        foldConstants code) ∧
    (¬ ∃ i j : Instruction, (i.op.isPurePush = true ∨ i.op = .dup) ∧ j.op = .pop ∧
      [i, j] <:+: dropUnused code) ∧
    ¬ ∃ i s j : Instruction, i.op = .dup ∧ s.op.isStore = true ∧ j.op = .pop ∧
      [i, s, j] <:+: dropUnused code := by
  have hfold := normal_foldConstants code
  have hdrop := normal_dropUnused code
  refine ⟨foldConstants_of_normal hfold, dropUnused_of_normal hdrop, ?_, ?_, ?_⟩
  · rintro ⟨a, b, message, sa, sb, s, hsome, hwindow⟩
    obtain ⟨v, hv⟩ := Option.isSome_iff_exists.mp hsome
    obtain ⟨op, hop⟩ := Fold.exists_constant? hv
    exact hfold _ _ (.op hv hop) hwindow
  · rintro ⟨i, j, hi, hj, hwindow⟩
    rcases hi with hi | hi
    · exact hdrop _ _ (.push hi hj) hwindow
    · exact hdrop _ _ (.dup hi hj) hwindow
  · rintro ⟨i, s, j, hi, hs, hj, hwindow⟩
    exact hdrop _ _ (.store hi hs hj) hwindow

end StackCode
