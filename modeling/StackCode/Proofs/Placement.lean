import StackCode.Proofs.Rewriting
import StackCode.Proofs.ScopeTree

/-!
# Where instructions may stand

The discipline of lowered code. Beyond the operands that the height check counts, it asks of each
instruction that

* its scope belongs to the body around it,
* it leaves alone the operands from before the innermost loop,
* a variable that it names is bound, and a scope that it names exists and is of the right kind,
* a signal that it raises is taken up inside the body, and
* a call takes a block exactly when a block literal stands right before it.

The passes respect the discipline (`placement_stable`).
-/

namespace StackCode

/-- Whether `name` means a variable in scope `s`. -/
def ScopeTree.finds (t : ScopeTree) (s : ScopeId) (name : String) (localOnly : Bool) : Bool :=
  match t.resolve? s name localOnly with
  | some (.ok _) => true
  | _ => false

/-- A search succeeds on the names that are bound. -/
theorem ScopeTree.finds_iff {t : ScopeTree} (ht : t.Sound) {s : ScopeId} {name : String}
    {localOnly : Bool} : t.finds s name localOnly = true ↔ Bound t s name localOnly := by
  constructor
  · intro h
    unfold finds at h
    split at h
    · rename_i r hr
      exact ⟨_, _, _, (resolve?_eq_ok_iff ht).mp hr⟩
    · cases h
  · rintro ⟨depth, r, k, hb⟩
    have hr : t.resolve? s name localOnly = some (.ok ⟨r, depth, k⟩) :=
      (resolve?_eq_ok_iff ht).mpr hb
    simp [finds, hr]

/-- The height that code at the point has to leave below it: that of the innermost loop. -/
def Point.floor (p : Point) : Nat := p.site.loop.getD 0

@[simp] theorem Point.floor_atHeight (p : Point) (h : Nat) : (p.atHeight h).floor = p.floor := rfl
@[simp] theorem Point.floor_inLoop (p : Point) : p.inLoop.floor = p.height := rfl
@[simp] theorem Point.floor_start (b : BodyKind) (s : ScopeId) : (Point.start b s).floor = 0 := rfl
@[simp] theorem Point.floor_behindBlock (p : Point) (b : Bool) :
    (p.behindBlock b).floor = p.floor := rfl

namespace Op

/-- How many operands the operation takes. -/
def needs (op : Op) : Nat :=
  match op with
  | ifTrue => 1
  | op => (op.effect?.map Prod.fst).getD 0

theorem needs_of_effect {op : Op} {taken left : Nat} (h : op.effect? = some (taken, left)) :
    op.needs = taken := by
  unfold needs
  split
  · cases h
  · rw [h]
    rfl

/-- The operands of a call, when they can be counted. -/
theorem effect?_send {message : String} {argc : UInt64} {receiver withBlock : Bool}
    (h : argc.toNat < 2 ^ 63) : (send message argc receiver withBlock).effect? =
      some (receiver.toNat + argc.toNat + withBlock.toNat, 1) := by
  have hr := Bool.toNat_le receiver
  have hb := Bool.toNat_le withBlock
  have hsum : argc.toNat + receiver.toNat + withBlock.toNat < UInt64.size := by
    unfold UInt64.size
    omega
  rw [effect?, if_pos hsum, Nat.add_comm argc.toNat]

/-- The variable that the operation reads or writes, and whether it has to be found in the innermost
scope. -/
def access? : Op → Option (String × Bool)
  | getLocal name => some (name, false)
  | setLocal name localOnly => some (name, localOnly)
  | _ => none

/-- A scope that a method owns. -/
def opensMethod (t : ScopeTree) (s : ScopeId) : Bool :=
  match t.get? s with
  | some scope => !scope.hoist && !scope.block
  | none => false

/-- A scope that a block owns which stands in a body with scope `home`. -/
def opensBlock (t : ScopeTree) (home s : ScopeId) : Bool :=
  match t.get? s with
  | some { hoist := false, block := true, outer := some outer, .. } =>
    t.hoistTarget? outer = some home
  | _ => false

/-- The body of a method has a scope that sees nothing around it. -/
theorem opensMethod_iff {t : ScopeTree} {s : ScopeId} : opensMethod t s = true ↔
    ∃ scope, t.get? s = some scope ∧ scope.hoist = false ∧ scope.block = false := by
  unfold opensMethod
  cases t.get? s <;> simp

/-- The body of a block has a scope inside one of the body around it. -/
theorem opensBlock_iff {t : ScopeTree} {home s : ScopeId} : opensBlock t home s = true ↔
    ∃ scope outer, t.get? s = some scope ∧ scope.hoist = false ∧ scope.block = true ∧
      scope.outer = some outer ∧ t.hoistTarget? outer = some home := by
  unfold opensBlock
  constructor
  · intro h
    split at h
    · rename_i hget
      exact ⟨_, _, hget, rfl, rfl, rfl, of_decide_eq_true h⟩
    · cases h
  · rintro ⟨⟨vars, hoist, block, outer'⟩, outer, hget, rfl, rfl, rfl, hhome⟩
    rw [hget]
    exact decide_eq_true hhome

/-- Whether `scope` is one for the operation to stand in, in a body with scope `home`. The end of a
body is written down in the scope outside of it. -/
def belongs (t : ScopeTree) (home scope : ScopeId) : Op → Bool
  | endBlock _ => t.contains scope
  | _ => t.hoistTarget? scope = some home

/-- Whether the operation has a meaning in the body and the scope where it stands. -/
def fits (t : ScopeTree) (site : Site) (scope : ScopeId) : Op → Bool
  | getLocal name => t.finds scope name false
  | setLocal name localOnly => t.finds scope name localOnly
  | send _ argc _ _ => argc.toNat < 2 ^ 63
  | defineMethod _ s => opensMethod t s
  | defineBlock s => opensBlock t site.scope s
  | ret => site.body ≠ .block
  | breakOut => site.loop.isSome
  | next withValue =>
    if withValue then site.loop.isNone && site.body = .block else site.loop.isSome
  | _ => true

end Op

/-- The discipline of lowered code. -/
def placement (t : ScopeTree) : Discipline where
  admits p i :=
    i.op.takesBlock == p.awaiting && i.op.belongs t p.site.scope i.scope &&
      decide (p.floor + i.op.needs ≤ p.height) && i.op.fits t p.site i.scope
  awaits := true

variable {t : ScopeTree} {p : Point} {i : Instruction}

/-- The four demands of the discipline. -/
theorem admits_placement_iff : (placement t).admits p i = true ↔
    i.op.takesBlock = p.awaiting ∧ i.op.belongs t p.site.scope i.scope = true ∧
      p.floor + i.op.needs ≤ p.height ∧ i.op.fits t p.site i.scope = true := by
  simp only [placement, Bool.and_eq_true, beq_iff_eq, decide_eq_true_eq, and_assoc]

/-- **The passes respect the discipline.** -/
theorem placement_stable (t : ScopeTree) : (placement t).Stable where
  settled := by
    intro p i ha ht
    obtain ⟨h, -⟩ := admits_placement_iff.mp ha
    rw [← h, ht]
  store := by
    intro p c s hc hs hcopy hstore
    obtain ⟨haw, -, hfloor, -⟩ := admits_placement_iff.mp hcopy
    obtain ⟨htakes, hscope, -, hfits⟩ := admits_placement_iff.mp hstore
    have hneeds : s.op.needs = 1 := Op.needs_of_effect (effect?_of_isStore hs)
    refine admits_placement_iff.mpr ⟨?_, hscope, ?_, hfits⟩
    · rw [htakes, ← haw, hc]
      rfl
    · rw [hneeds]
      rw [hc] at hfloor
      exact hfloor
  constant := by
    intro p a m s v op ha hfirst hsend hop
    obtain ⟨haw, -, hfloor, -⟩ := admits_placement_iff.mp hfirst
    obtain ⟨-, hscope, -, -⟩ := admits_placement_iff.mp hsend
    have hconst : op.takesBlock = false ∧ op.fits t p.site s = true ∧
        op.belongs t p.site.scope s = (Op.send m 1 true false).belongs t p.site.scope s := by
      unfold Fold.constant? at hop
      split at hop
      · cases hop
        exact ⟨rfl, rfl, rfl⟩
      · rename_i b
        cases b <;> (cases hop; exact ⟨rfl, rfl, rfl⟩)
      · cases hop
    refine admits_placement_iff.mpr ⟨?_, hconst.2.2.trans hscope, ?_, hconst.2.1⟩
    · rw [hconst.1, ← haw, takesBlock_of_isPurePush ha]
    · show p.floor + op.needs ≤ p.height
      rw [Op.needs_of_effect (Fold.effect?_constant hop)]
      omega

end StackCode
