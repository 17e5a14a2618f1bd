import StackCode.Compile
import StackCode.Proofs.Lowering

/-!
# What the passes produce

A program is *disciplined* when its scopes form a tree that was built by opening scopes and
declaring names in them, and when its code keeps to the discipline of `placement`. Lowering produces
such programs (`disciplined_of_toProgram`) and the passes after it keep them so, hence the last pass
has nothing to complain about: what remains of the ways to fail are the misplaced forms
(`compile_succeeds_iff_well_placed`).
-/

namespace StackCode

variable {e : Expr} {used : Bool} {p : Program} {t : ScopeTree} {code : List Instruction} {n : Nat}

/-! ## Disciplined programs -/

/-- The point at which a program begins. -/
def Point.top : Point := .start .top .root

/-- The scopes of the program were opened one inside the other, and its code keeps to the discipline
of lowered code and leaves `n` values. -/
structure Program.Disciplined (p : Program) (n : Nat) : Prop where
  scopes : p.scopes.Proper
  top : Op.opensMethod p.scopes .root = true
  code : scan (placement p.scopes) (.top, []) p.code = some (Point.top.atHeight n, [])

theorem Finished.opensMethod_root (hT : Finished .initial t) : Op.opensMethod t .root = true := by
  have hroot : ScopeTree.initial.get? .root = some {} := rfl
  obtain ⟨scope, hget, hext⟩ := hT.grown.get? hroot
  exact Op.opensMethod_iff.mpr ⟨scope, hget, hext.hoist, hext.block⟩

theorem stands_top (hT : Finished .initial t) : Stands t {} .top := by
  obtain ⟨scope, hget, hhoist, -⟩ := Op.opensMethod_iff.mp hT.opensMethod_root
  exact ⟨rfl, rfl, hT.proper.hoistTarget?_eq_some_iff.mpr (.self hget hhoist), rfl⟩

theorem disciplined_of_toProgram (hc : e.Countable {}) (h : e.toProgram used = .ok p)
    (hsmall : p.scopes.size ≤ 2 ^ 32) : p.Disciplined used.toNat := by
  unfold Expr.toProgram at h
  obtain ⟨⟨code, scopes⟩, hlower, h⟩ := bind_eq_ok h
  cases h
  have hlast : Emits {} scopes (if used then [] else Place.emit {} [.pop]) scopes 1 used.toNat := by
    cases used
    · exact Expr.emits_pop
    · exact emits_nil
  obtain ⟨⟨m, hm⟩, hreads⟩ := (Expr.emits_lower e (by exact hc) hlower).append hlast
    ScopeTree.proper_initial (by decide)
  have hT : Finished scopes scopes := ⟨hm.proper ScopeTree.proper_initial, hsmall, .refl _⟩
  have hinitial := hT.of_grows hm
  refine ⟨hT.proper, hinitial.opensMethod_root, ?_⟩
  have hread := hreads scopes hT .top [] 0 (stands_top hinitial) rfl (Nat.le_refl _)
  rw [Nat.zero_add] at hread
  exact hread

/-- The passes that rewrite code keep programs disciplined. -/
theorem Program.Disciplined.optimized (h : p.Disciplined n) :
    { p with code := dropUnused (foldConstants p.code) : Program }.Disciplined n :=
  have hstable := placement_stable p.scopes
  ⟨h.scopes, h.top, scan_dropUnused hstable (scan_foldConstants hstable h.code)⟩

/-- **The last pass accepts disciplined programs.** -/
theorem Program.Disciplined.checkHeights (h : p.Disciplined n) : checkHeights p.code n = .ok () :=
  (nested_of_scan h.code).checkHeights rfl

/-! ## Validity -/

/-- Every instruction that a scan has read was admitted where it stands. -/
theorem exists_admits_of_scan {d : Discipline} {σ τ : Point × List Enclosing}
    (h : scan d σ code = some τ) : ∀ i ∈ code, ∃ p, d.admits p i = true := by
  induction code generalizing σ with
  | nil => simp
  | cons i rest ih =>
    obtain ⟨ρ, hstep, hrest⟩ := scan_cons_eq_some h
    intro j hj
    rcases List.mem_cons.mp hj with rfl | hj
    · exact ⟨σ.1, admits_of_scanStep hstep⟩
    · exact ih hrest j hj

theorem Program.checkCode_eq_ok_iff (k : Nat) : checkCode t k code = .ok () ↔
    ∀ i ∈ code, ∀ s ∈ i.scope :: i.op.bodyScope?.toList, t.contains s = true := by
  induction code generalizing k with
  | nil => simp [checkCode]
  | cons i rest ih =>
    rw [checkCode, List.forall_mem_cons]
    split
    · rename_i s hs
      refine iff_of_false (by simp) fun h => ?_
      have := List.find?_some hs
      rw [h.1 s (List.mem_of_find?_eq_some hs)] at this
      cases this
    · rename_i hnone
      rw [ih, iff_and_self]
      intro _ s hs
      simpa using List.find?_eq_none.mp hnone s hs

/-- The scopes that an admitted instruction names exist. -/
theorem contains_of_admits {q : Point} {i : Instruction} (h : (placement t).admits q i = true) :
    ∀ s ∈ i.scope :: i.op.bodyScope?.toList, t.contains s = true := by
  obtain ⟨-, hbelongs, -, hfits⟩ := admits_placement_iff.mp h
  have hscope : t.contains i.scope = true := by
    cases hop : i.op
    case endBlock => simpa [Op.belongs, hop] using hbelongs
    all_goals
      simp only [Op.belongs, hop, decide_eq_true_eq] at hbelongs
      exact ScopeTree.contains_of_hoistTarget? hbelongs
  have hbody : ∀ s ∈ i.op.bodyScope?, t.contains s = true := by
    intro s hs
    cases hop : i.op <;> rw [hop] at hs hfits <;> cases hs
    · obtain ⟨scope, hget, -⟩ := Op.opensMethod_iff.mp hfits
      exact decide_eq_true (ScopeTree.index_lt_size hget)
    · obtain ⟨scope, _, hget, -⟩ := Op.opensBlock_iff.mp hfits
      exact decide_eq_true (ScopeTree.index_lt_size hget)
  intro s hs
  rcases List.mem_cons.mp hs with rfl | hs
  · exact hscope
  · exact hbody s (Option.mem_toList.mp hs)

/-- **Disciplined programs are valid.** -/
theorem Program.Disciplined.validate (h : p.Disciplined n) : p.validate = .ok () := by
  have hscopes : p.scopes.validate = .ok () := ScopeTree.validate_eq_ok_iff.mpr h.scopes.toSound
  have hcode : checkCode p.scopes 0 p.code = .ok () := by
    rw [checkCode_eq_ok_iff]
    intro i hi
    obtain ⟨q, hq⟩ := exists_admits_of_scan h.code i hi
    exact contains_of_admits hq
  unfold Program.validate
  rw [hscopes]
  exact hcode

/-! ## All passes -/

theorem compile_eq (e : Expr) (used : Bool) : e.compile used = (do
    let p ← (e.toProgram used).mapError .misplaced
    let code := dropUnused (foldConstants p.code)
    (checkHeights code used.toNat).mapError .ofHeights
    return { p with code }) := by
  unfold Expr.compile Expr.compileUpTo
  simp only [Pass.upTo, List.foldlM_cons, List.foldlM_nil, Pass.apply]
  cases e.toProgram used with
  | error err => rfl
  | ok p =>
    have hok : (Except.ok p).mapError CompileError.misplaced = .ok p := rfl
    simp only [hok, bind, Except.bind]
    cases checkHeights (dropUnused (foldConstants p.code)) used.toNat <;> rfl

/-- A program that compiling gives is what the passes make of one that lowering gives. -/
theorem exists_toProgram_of_compile (h : e.compile used = .ok p) :
    ∃ q, e.toProgram used = .ok q ∧ p = { q with code := dropUnused (foldConstants q.code) } := by
  rw [compile_eq] at h
  obtain ⟨q, hq, h⟩ := bind_eq_ok h
  obtain ⟨-, -, h⟩ := bind_eq_ok h
  cases h
  refine ⟨q, ?_, rfl⟩
  cases hp : e.toProgram used with
  | error err => rw [hp] at hq; cases hq
  | ok q' => rw [hp] at hq; cases hq; rfl

/-- **Compiled programs are disciplined**, as long as their scopes can be numbered. -/
theorem disciplined_of_compile (hc : e.Countable {}) (h : e.compile used = .ok p)
    (hsmall : p.scopes.size ≤ 2 ^ 32) : p.Disciplined used.toNat := by
  obtain ⟨q, hq, rfl⟩ := exists_toProgram_of_compile h
  exact (disciplined_of_toProgram hc hq hsmall).optimized

theorem gives_toProgram_iff (e : Expr) (used : Bool) :
    Gives (e.toProgram used) ↔ ¬ e.HoldsMisplaced := by
  unfold Expr.toProgram
  rw [gives_bind_iff (P := True) (fun parts => by cases parts; simp), Expr.gives_lower_iff,
    and_true, Expr.not_holdsMisplaced_iff]
  rfl

/-- **Compiling fails on the expressions that hold a misplaced form, and on no others**: to all
others it gives a valid program, which leaves its value exactly when it is used. The last pass never
refuses what the passes before it made. -/
theorem compile_succeeds_iff_well_placed (e : Expr) (used : Bool) (hc : e.Countable {})
    (hsmall : ∀ p, e.toProgram used = .ok p → p.scopes.size < 2 ^ 32) :
    ((∃ err, e.compile used = .error (.misplaced err)) ↔ e.HoldsMisplaced) ∧
    (¬ e.HoldsMisplaced → ∃ p, e.compile used = .ok p ∧ p.validate = .ok () ∧
      checkHeights p.code used.toNat = .ok ()) ∧
    (∀ err, e.compile used ≠ .error (.malformed err)) ∧
    ∀ op, e.compile used ≠ .error (.countOverflow op) := by
  cases hp : e.toProgram used with
  | error err =>
    have hm : e.HoldsMisplaced := by
      refine Classical.byContradiction fun hm => ?_
      obtain ⟨p, h⟩ := (gives_toProgram_iff e used).mpr hm
      rw [hp] at h
      cases h
    have hcompile : e.compile used = .error (.misplaced err) := by
      rw [compile_eq, hp]
      rfl
    refine ⟨⟨fun _ => hm, fun _ => ⟨err, hcompile⟩⟩, fun h => absurd hm h, ?_⟩
    rw [hcompile]
    simp
  | ok p =>
    have hm : ¬ e.HoldsMisplaced := (gives_toProgram_iff e used).mp ⟨p, hp⟩
    have hd := (disciplined_of_toProgram hc hp (Nat.le_of_lt (hsmall p hp))).optimized
    have hcompile : e.compile used =
        .ok { p with code := dropUnused (foldConstants p.code) } := by
      rw [compile_eq, hp]
      show (do
        (checkHeights (dropUnused (foldConstants p.code)) used.toNat).mapError _
        return _) = _
      rw [hd.checkHeights]
      rfl
    refine ⟨iff_of_false ?_ hm, fun _ => ⟨_, hcompile, hd.validate, hd.checkHeights⟩, ?_⟩
    · rintro ⟨err, h⟩
      rw [hcompile] at h
      cases h
    · rw [hcompile]
      simp

/-- A method that yields from a loop, called with a block that assigns a variable outside of it. -/
def Expr.sumDown : Expr := .seq [
  .method "each" ["n"] [
    .loop (.call (some (.var "n")) ">" [.int 0]) [
      .cond (.call (some (.var "n")) "==" [.int 7]) (some .brk) none,
      .yield [.var "n"],
      .assign "n" (.call (some (.var "n")) "-" [.int 1])],
    .ret (some (.var "n"))],
  .assign "sum" (.int 0),
  .iter none "each" [.int 3] ["k"] [
    .next (some (.assign "sum" (.call (some (.var "sum")) "+" [.var "k"])))],
  .var "sum"]

theorem Expr.countable_sumDown : sumDown.Countable {} :=
  countable_of_sizeOf_lt (by decide)

theorem compile_succeeds_sumDown :
    Expr.sumDown.Countable {} ∧ ¬ Expr.sumDown.HoldsMisplaced ∧
    (∀ p, Expr.sumDown.toProgram true = .ok p → p.scopes.size < 2 ^ 32) ∧
    ∃ p, Expr.sumDown.compile true = .ok p ∧ p.validate = .ok () ∧
      checkHeights p.code 1 = .ok () := by
  have hc := Expr.countable_sumDown
  have hm : ¬ Expr.sumDown.HoldsMisplaced := (gives_toProgram_iff .sumDown true).mp ⟨_, rfl⟩
  have hsmall : ∀ p, Expr.sumDown.toProgram true = .ok p → p.scopes.size < 2 ^ 32 := by
    intro p hp
    cases hp
    decide
  obtain ⟨-, hok, -⟩ := compile_succeeds_iff_well_placed .sumDown true hc hsmall
  exact ⟨hc, hm, hsmall, hok hm⟩

end StackCode
