import StackCode.Proofs.Misplaced
import StackCode.Proofs.Placement

/-!
# What lowering emits

`Emits here t code t' a b` says of code written at the place `here` that it takes `a` values and
leaves `b`, that it keeps to the discipline of lowered code, and that the scopes have grown from `t`
to `t'`. The discipline is that of a finished tree `T`, of which `t'` is a beginning: code that is
written early is read in the tree of the whole program.

There is one rule for each way in which `lower` puts code together. The main statement is
`Expr.emits_lower`: the code of an expression leaves one value.
-/

namespace StackCode

/-! ## Places and points -/

/-- The point of code is one of the place. -/
structure Stands (T : ScopeTree) (here : Place) (p : Point) : Prop where
  body : p.site.body = here.body
  loop : p.site.loop.isSome = here.inLoop
  scope : T.hoistTarget? here.scope = some p.site.scope
  settled : p.awaiting = false

variable {here inside : Place} {t t₁ t₂ t' T : ScopeTree} {p : Point} {h a b c k : Nat}
  {code code₁ code₂ : List Instruction} {op : Op} {around : List Enclosing}

theorem Stands.atHeight (hp : Stands T here p) (h : Nat) : Stands T here (p.atHeight h) :=
  ⟨hp.body, hp.loop, hp.scope, rfl⟩

/-- Code stands in a scope that there is. -/
theorem Stands.contains (hp : Stands T here p) : T.contains here.scope = true :=
  ScopeTree.contains_of_hoistTarget? hp.scope

/-- An operation that is no end may stand where its place is, when there are operands enough. -/
theorem Stands.admits (hp : Stands T here p) (op : Op) (htakes : op.takesBlock = false)
    (hfits : op.fits T p.site here.scope = true) (hneeds : p.floor + op.needs ≤ p.height) :
    (placement T).admits p ⟨op, here.scope⟩ = true := by
  refine admits_placement_iff.mpr ⟨?_, ?_, hneeds, hfits⟩
  · rw [hp.settled, htakes]
  · cases op
    case endBlock => exact hp.contains
    all_goals exact decide_eq_true hp.scope

theorem scan_singleton {d : Discipline} {σ τ : Point × List Enclosing} {i : Instruction}
    (h : scanStep d σ i = some τ) : scan d σ [i] = some τ := by
  rw [scan_cons, h]
  rfl

/-! ## Emission -/

/-- The code may stand at the place and takes `a` values to leave `b`. -/
def Reads (T : ScopeTree) (here : Place) (code : List Instruction) (a b : Nat) : Prop :=
  ∀ p around h, Stands T here p → p.height = h + a → p.floor ≤ h →
    scan (placement T) (p, around) code = some (p.atHeight (h + b), around)

/-- The trees in which code is read that was written when there was `t'`. -/
structure Finished (t' T : ScopeTree) : Prop where
  proper : T.Proper
  small : T.size ≤ 2 ^ 32
  grown : t'.Extends T

/-- The code, written at the place while the scopes grew from `t` to `t'`, takes `a` values to leave
`b`. -/
def Emits (here : Place) (t : ScopeTree) (code : List Instruction) (t' : ScopeTree) (a b : Nat) :
    Prop :=
  t.Proper → here.scope.index < t.size →
    (∃ n, t.Grows n t') ∧ ∀ T, Finished t' T → Reads T here code a b

/-- A tree that is finished for later code is finished for earlier code. -/
theorem Finished.of_grows {n : Nat} (hT : Finished t' T) (hg : t.Grows n t') : Finished t T :=
  ⟨hT.proper, hT.small, hg.extends.trans hT.grown⟩

theorem Finished.size_le (hT : Finished t T) : t.size ≤ 2 ^ 32 :=
  Nat.le_trans hT.grown.size_le hT.small

theorem emits_nil : Emits here t [] t a a := by
  refine fun _ _ => ⟨⟨0, .refl⟩, fun T _ p around h hp hh _ => ?_⟩
  rw [scan_nil, ← hh, Point.atHeight_self hp.settled]

/-- One piece of code after another. What the first one has brought about is known of the second. -/
theorem Emits.andThen (h₁ : Emits here t code₁ t₁ a b)
    (h₂ : t.Proper → here.scope.index < t.size → (∃ n, t.Grows n t₁) →
      Emits here t₁ code₂ t₂ b c) :
    Emits here t (code₁ ++ code₂) t₂ a c := by
  intro ht hs
  obtain ⟨⟨n, hn⟩, hread₁⟩ := h₁ ht hs
  have hs₁ : here.scope.index < t₁.size := by rw [hn.size]; omega
  obtain ⟨⟨m, hm⟩, hread₂⟩ := h₂ ht hs ⟨n, hn⟩ (hn.proper ht) hs₁
  refine ⟨⟨n + m, hn.trans hm⟩, fun T hT p around h hp hh hf => ?_⟩
  have hfirst := hread₁ T (hT.of_grows hm) p around h hp hh hf
  have hsecond := hread₂ T hT (p.atHeight (h + b)) around h (hp.atHeight _) rfl hf
  exact scan_append_of_eq_some hfirst hsecond

theorem Emits.append (h₁ : Emits here t code₁ t₁ a b) (h₂ : Emits here t₁ code₂ t₂ b c) :
    Emits here t (code₁ ++ code₂) t₂ a c :=
  h₁.andThen fun _ _ _ => h₂

/-- Values further down are left alone. -/
theorem Emits.frame (k : Nat) (hc : Emits here t code t' a b) :
    Emits here t code t' (k + a) (k + b) := by
  intro ht hs
  obtain ⟨hg, hread⟩ := hc ht hs
  refine ⟨hg, fun T hT p around h hp hh hf => ?_⟩
  rw [← Nat.add_assoc]
  exact hread T hT p around (h + k) hp (by omega) (by omega)

/-- Two pieces of code, with the values of the first one below those of the second. -/
theorem Emits.beside (h₁ : Emits here t code₁ t₁ 0 a) (h₂ : Emits here t₁ code₂ t₂ 0 b) :
    Emits here t (code₁ ++ code₂) t₂ 0 (a + b) :=
  h₁.append (h₂.frame a)

/-- Scopes may grow before the code is written. -/
theorem Emits.of_grows {n : Nat} (hg : t.Grows n t₁)
    (hc : t.Proper → here.scope.index < t.size → Emits here t₁ code t' a b) :
    Emits here t code t' a b := by
  intro ht hs
  obtain ⟨⟨m, hm⟩, hread⟩ := hc ht hs (hg.proper ht) (by rw [hg.size]; omega)
  exact ⟨⟨n + m, hg.trans hm⟩, hread⟩

theorem Place.emit_cons (here : Place) (op : Op) (ops : List Op) :
    here.emit (op :: ops) = here.emit [op] ++ here.emit ops := rfl

/-- A single operation. -/
theorem emits_op (htakes : op.takesBlock = false) (he : op.effect? = some (a, b))
    (hfits : t.Proper → here.scope.index < t.size → ∀ T p, Finished t T → Stands T here p →
      op.fits T p.site here.scope = true) :
    Emits here t (here.emit [op]) t a b := by
  refine fun ht hs => ⟨⟨0, .refl⟩, fun T hT p around h hp hh hf => ?_⟩
  have hneeds : p.floor + op.needs ≤ p.height := by
    rw [Op.needs_of_effect he]
    omega
  have ha := hp.admits op htakes (hfits ht hs T p hT hp) hneeds
  have hstep : scanStep (placement T) (p, around) ⟨op, here.scope⟩ = _ :=
    scanStep_plain ha he (by omega)
  rw [hh, Nat.add_sub_cancel] at hstep
  exact scan_singleton hstep

/-! ## Scopes that are opened for code -/

/-- What a finished tree knows of a scope that was opened. -/
theorem Finished.get?_push {outer : ScopeId} {kind : ScopeKind}
    (hT : Finished (t.push outer kind).1 T) :
    ∃ scope, T.get? (t.push outer kind).2 = some scope ∧ scope.hoist = (kind == .hoisted) ∧
      scope.block = (kind != .method) ∧ scope.outer = some outer := by
  have hsmall : t.size < 2 ^ 32 := by
    have := hT.size_le
    rw [ScopeTree.size_push] at this
    omega
  obtain ⟨scope, hget, hext⟩ := hT.grown.get? (ScopeTree.get?_push hsmall)
  refine ⟨scope, hget, ?_, ?_, ?_⟩
  · rw [hext.hoist]
    cases kind <;> rfl
  · rw [hext.block]
    cases kind <;> rfl
  · rw [hext.outer, ScopeTree.opened_outer]

/-- The place inside a branch that belongs to the body of the place around it. -/
theorem Stands.hoisted (hT : Finished (t.push here.scope .hoisted).1 T) (hp : Stands T here p) :
    Stands T { here with scope := (t.push here.scope .hoisted).2 } p := by
  obtain ⟨scope, hget, hhoist, -, houter⟩ := hT.get?_push
  refine ⟨hp.body, hp.loop, ?_, hp.settled⟩
  have hout := hT.proper.hoistTarget?_eq_some_iff.mp hp.scope
  exact hT.proper.hoistTarget?_eq_some_iff.mpr (.outward hget hhoist houter hout)

/-- A place inside a body of its own. -/
theorem stands_start {outer : ScopeId} {kind : ScopeKind} (hk : kind ≠ .hoisted) (body : BodyKind)
    (hT : Finished (t.push outer kind).1 T) :
    Stands T { scope := (t.push outer kind).2, body } (.start body (t.push outer kind).2) := by
  obtain ⟨scope, hget, hhoist, -, -⟩ := hT.get?_push
  refine ⟨rfl, rfl, ?_, rfl⟩
  refine hT.proper.hoistTarget?_eq_some_iff.mpr (.self hget ?_)
  rw [hhoist]
  cases kind <;> simp_all

theorem index_push_lt (t : ScopeTree) (outer : ScopeId) (kind : ScopeKind) :
    (t.push outer kind).2.index < (t.push outer kind).1.size := by
  rw [ScopeTree.size_push]
  show (t.size.toUInt32).toNat < t.size + 1
  have : t.size.toUInt32.toNat = t.size % 2 ^ 32 := by simp
  rw [this]
  exact Nat.lt_succ_of_le (Nat.mod_le _ _)

/-- Code that is written in a scope opened for a branch counts as written outside. -/
theorem Emits.hoisted
    (hc : Emits { here with scope := (t.push here.scope .hoisted).2 }
      (t.push here.scope .hoisted).1 code t' a b) :
    Emits here t code t' a b := by
  intro ht hs
  obtain ⟨⟨n, hn⟩, hread⟩ := hc (ScopeTree.proper_push ht hs) (index_push_lt t _ _)
  refine ⟨⟨1 + n, .trans (.push _ _ .refl hs) hn⟩, fun T hT p around h hp hh hf => ?_⟩
  exact hread T hT p around h (hp.hoisted (hT.of_grows hn)) hh hf

/-! ## Blocks -/

/-- A conditional takes its condition, and leaves what each of its branches does. -/
theorem emits_cond {yes no : List Instruction} (hyes : Emits here t yes t₁ a b)
    (hno : Emits here t₁ no t₂ a b) :
    Emits here t (here.emit [.ifTrue] ++ yes ++ here.emit [.orElse] ++ no
      ++ here.emit [.endBlock .cond]) t₂ (a + 1) b := by
  intro ht hs
  obtain ⟨⟨n, hn⟩, hread₁⟩ := hyes ht hs
  obtain ⟨⟨m, hm⟩, hread₂⟩ := hno (hn.proper ht) (by rw [hn.size]; omega)
  refine ⟨⟨n + m, hn.trans hm⟩, fun T hT p around h hp hh hf => ?_⟩
  -- the branches start at `q`, where the condition has been taken
  let q := p.atHeight (h + a)
  have hq : Stands T here q := hp.atHeight _
  have hopen : scanStep (placement T) (p, around) ⟨.ifTrue, here.scope⟩ =
      some (q, .yes q :: around) := by
    have ha := hp.admits .ifTrue rfl rfl (by show p.floor + 1 ≤ p.height; omega)
    simp [scanStep, ha, Op.effect?, hh, q]
  have helse : scanStep (placement T) (q.atHeight (h + b), .yes q :: around)
      ⟨.orElse, here.scope⟩ = some (q, .no q (h + b) :: around) := by
    have ha := (hq.atHeight (h + b)).admits .orElse rfl rfl
      (by show p.floor + 0 ≤ h + b; omega)
    simp [scanStep, ha, Op.effect?]
  have hclose : scanStep (placement T) (q.atHeight (h + b), .no q (h + b) :: around)
      ⟨.endBlock .cond, here.scope⟩ = some (p.atHeight (h + b), around) := by
    have ha := (hq.atHeight (h + b)).admits (.endBlock .cond) rfl rfl
      (by show p.floor + 0 ≤ h + b; omega)
    simp [scanStep, ha, Op.effect?]
    rfl
  have hyes' := hread₁ T (hT.of_grows hm) q (.yes q :: around) h hq rfl hf
  have hno' := hread₂ T hT q (.no q (h + b) :: around) h hq rfl hf
  refine scan_append_of_eq_some (scan_append_of_eq_some (scan_append_of_eq_some
    (scan_append_of_eq_some ?_ hyes') ?_) hno') ?_
  · exact scan_singleton hopen
  · exact scan_singleton helse
  · exact scan_singleton hclose

/-- Code around which a loop is: it has to leave alone what is below the loop. -/
theorem Stands.inLoop (hT : Finished (t.push here.scope .hoisted).1 T) (hp : Stands T here p) :
    Stands T { here with scope := (t.push here.scope .hoisted).2, inLoop := true } p.inLoop :=
  ⟨hp.body, rfl, (hp.hoisted hT).scope, rfl⟩

/-- A loop leaves the operands as it found them. Its test and body are in a scope of their own. -/
theorem emits_loop {test body : List Instruction}
    (htest : Emits { here with scope := (t.push here.scope .hoisted).2, inLoop := true }
      (t.push here.scope .hoisted).1 test t₁ 0 1)
    (hbody : Emits { here with scope := (t.push here.scope .hoisted).2, inLoop := true }
      t₁ body t₂ 0 0) :
    Emits here t (here.emit [.whileTrue] ++ test
      ++ ({ here with scope := (t.push here.scope .hoisted).2, inLoop := true } : Place).emit
        [.loopBody]
      ++ body ++ here.emit [.endBlock .loop]) t₂ 0 0 := by
  intro ht hs
  obtain ⟨⟨n, hn⟩, hread₁⟩ := htest (ScopeTree.proper_push ht hs) (index_push_lt t _ _)
  obtain ⟨⟨m, hm⟩, hread₂⟩ := hbody (hn.proper (ScopeTree.proper_push ht hs))
    (by have := index_push_lt t here.scope .hoisted; rw [hn.size]; exact Nat.lt_add_right n this)
  refine ⟨⟨1 + n + m, .trans (.trans (.push _ _ .refl hs) hn) hm⟩,
    fun T hT p around h hp hh hf => ?_⟩
  obtain rfl : h = p.height := hh.symm
  have hin : Stands T { here with scope := (t.push here.scope .hoisted).2, inLoop := true }
      p.inLoop := hp.inLoop ((hT.of_grows hm).of_grows hn)
  -- the three instructions of the loop itself, between which test and body are read
  have hopen : scanStep (placement T) (p, around) ⟨.whileTrue, here.scope⟩ =
      some (p.inLoop, .test p :: around) := by
    have ha := hp.admits .whileTrue rfl rfl (by show p.floor + 0 ≤ p.height; omega)
    simp [scanStep, ha, Op.effect?]
  have hturn : scanStep (placement T) (p.inLoop.atHeight (p.height + 1), .test p :: around)
      ⟨.loopBody, (t.push here.scope .hoisted).2⟩ = some (p.inLoop, .round p :: around) := by
    have ha := (hin.atHeight (p.height + 1)).admits .loopBody rfl rfl
      (by show p.height + 0 ≤ p.height + 1; omega)
    simp [scanStep, ha, Op.effect?]
  have hclose : scanStep (placement T) (p.inLoop.atHeight p.height, .round p :: around)
      ⟨.endBlock .loop, here.scope⟩ = some (p.atHeight p.height, around) := by
    have ha : (placement T).admits (p.inLoop.atHeight p.height)
        ⟨.endBlock .loop, here.scope⟩ = true :=
      admits_placement_iff.mpr ⟨rfl, hp.contains, Nat.le_refl _, rfl⟩
    simp [scanStep, ha, Op.effect?]
  have htest' := hread₁ T (hT.of_grows hm) p.inLoop (.test p :: around) p.height hin rfl
    (Nat.le_refl _)
  have hbody' := hread₂ T hT p.inLoop (.round p :: around) p.height hin rfl (Nat.le_refl _)
  refine scan_append_of_eq_some (scan_append_of_eq_some (scan_append_of_eq_some
    (scan_append_of_eq_some ?_ htest') ?_) hbody') ?_
  · exact scan_singleton hopen
  · exact scan_singleton hturn
  · exact scan_singleton hclose

/-- A method definition leaves the name of the method. -/
theorem emits_method (name : String)
    (hbody : Emits { scope := (t.push here.scope .method).2, body := .method }
      (t.push here.scope .method).1 code t' 0 1) :
    Emits here t (here.emit [.defineMethod name (t.push here.scope .method).2] ++ code
      ++ here.emit [.endBlock .method]) t' 0 1 := by
  intro ht hs
  obtain ⟨⟨n, hn⟩, hread⟩ := hbody (ScopeTree.proper_push ht hs) (index_push_lt t _ _)
  refine ⟨⟨1 + n, .trans (.push _ _ .refl hs) hn⟩, fun T hT p around h hp hh hf => ?_⟩
  obtain rfl : h = p.height := hh.symm
  have hpush := hT.of_grows hn
  have hopen : scanStep (placement T) (p, around)
      ⟨.defineMethod name (t.push here.scope .method).2, here.scope⟩ =
      some (.start .method (t.push here.scope .method).2, .method p :: around) := by
    have hfits : (Op.defineMethod name (t.push here.scope .method).2).fits T p.site here.scope
        = true := by
      obtain ⟨scope, hget, hhoist, hblock, -⟩ := hpush.get?_push
      exact Op.opensMethod_iff.mpr ⟨scope, hget, hhoist, hblock⟩
    have ha := hp.admits _ rfl hfits (by show p.floor + 0 ≤ p.height; omega)
    simp [scanStep, ha, Op.effect?]
  have hclose : scanStep (placement T)
      ((Point.start .method (t.push here.scope .method).2).atHeight 1, .method p :: around)
      ⟨.endBlock .method, here.scope⟩ = some (p.atHeight (p.height + 1), around) := by
    have ha : (placement T).admits ((Point.start .method (t.push here.scope .method).2).atHeight 1)
        ⟨.endBlock .method, here.scope⟩ = true :=
      admits_placement_iff.mpr ⟨rfl, hp.contains, Nat.zero_le _, rfl⟩
    simp [scanStep, ha, Op.effect?]
  have hbody' := hread T hT (.start .method _) (.method p :: around) 0
    (stands_start (by decide) .method hpush) rfl (Nat.le_refl _)
  refine scan_append_of_eq_some (scan_append_of_eq_some ?_ hbody') ?_
  · exact scan_singleton hopen
  · exact scan_singleton hclose

/-- A call with a block: the literal stands right before the call that takes it. -/
theorem emits_blockCall {name : String} {argc : UInt64} {explicit : Bool}
    (hbody : Emits { scope := (t.push here.scope .block).2, body := .block }
      (t.push here.scope .block).1 code t' 0 1)
    (hargc : argc.toNat < 2 ^ 63)
    (he : (Op.send name argc explicit true).effect? = some (k + 1, 1)) :
    Emits here t (here.emit [.defineBlock (t.push here.scope .block).2] ++ code
      ++ here.emit [.endBlock .block, .send name argc explicit true]) t' k 1 := by
  intro ht hs
  obtain ⟨⟨n, hn⟩, hread⟩ := hbody (ScopeTree.proper_push ht hs) (index_push_lt t _ _)
  refine ⟨⟨1 + n, .trans (.push _ _ .refl hs) hn⟩, fun T hT p around h hp hh hf => ?_⟩
  have hpush := hT.of_grows hn
  have hopen : scanStep (placement T) (p, around)
      ⟨.defineBlock (t.push here.scope .block).2, here.scope⟩ =
      some (.start .block (t.push here.scope .block).2, .block p :: around) := by
    have hfits : (Op.defineBlock (t.push here.scope .block).2).fits T p.site here.scope = true := by
      obtain ⟨scope, hget, hhoist, hblock, houter⟩ := hpush.get?_push
      exact Op.opensBlock_iff.mpr ⟨scope, _, hget, hhoist, hblock, houter, hp.scope⟩
    have ha := hp.admits _ rfl hfits (by show p.floor + 0 ≤ p.height; omega)
    simp [scanStep, ha, Op.effect?]
  have hclose : scanStep (placement T)
      ((Point.start .block (t.push here.scope .block).2).atHeight 1, .block p :: around)
      ⟨.endBlock .block, here.scope⟩ = some (p.behindBlock true, around) := by
    have ha : (placement T).admits ((Point.start .block (t.push here.scope .block).2).atHeight 1)
        ⟨.endBlock .block, here.scope⟩ = true :=
      admits_placement_iff.mpr ⟨rfl, hp.contains, Nat.zero_le _, rfl⟩
    simp [scanStep, ha, Op.effect?]
    rfl
  -- behind the literal a block awaits its call, and this is the one that may follow
  have hsend : scanStep (placement T) (p.behindBlock true, around)
      ⟨.send name argc explicit true, here.scope⟩ = some (p.atHeight (h + 1), around) := by
    have hheight : (p.behindBlock true).height = h + (k + 1) := by
      show p.height + 1 = _
      omega
    have ha : (placement T).admits (p.behindBlock true)
        ⟨.send name argc explicit true, here.scope⟩ = true := by
      refine admits_placement_iff.mpr ⟨rfl, decide_eq_true hp.scope, ?_, decide_eq_true hargc⟩
      rw [hheight, Op.needs_of_effect he]
      show p.floor + (k + 1) ≤ _
      omega
    rw [scanStep_plain ha he (by omega), hheight, Nat.add_sub_cancel]
    rfl
  have hbody' := hread T hT (.start .block _) (.block p :: around) 0
    (stands_start (by decide) .block hpush) rfl (Nat.le_refl _)
  refine scan_append_of_eq_some (scan_append_of_eq_some ?_ hbody') ?_
  · exact scan_singleton hopen
  · rw [Place.emit_cons]
    exact scan_append_of_eq_some (scan_singleton hclose) (scan_singleton hsend)

/-! ## Variables -/

/-- A variable that is bound may be written. -/
theorem emits_setLocal {name : String} {localOnly : Bool}
    (hb : ScopeTree.Bound t here.scope name localOnly) :
    Emits here t (here.emit [.setLocal name localOnly]) t 1 0 :=
  emits_op rfl rfl fun _ _ _ _ hT _ =>
    (ScopeTree.finds_iff hT.proper.toSound).mpr (hb.extends hT.grown)

theorem emits_getLocal {name : String} (hb : ScopeTree.Bound t here.scope name false) :
    Emits here t (here.emit [.getLocal name]) t 0 1 :=
  emits_op rfl rfl fun _ _ _ _ hT _ =>
    (ScopeTree.finds_iff hT.proper.toSound).mpr (hb.extends hT.grown)

/-- Each parameter is declared before its argument is stored. -/
theorem emits_bindParams (here : Place) (n : Nat) (params : List String) (t : ScopeTree) :
    Emits here t (Expr.bindParams here n params t).1 (Expr.bindParams here n params t).2 0 0 := by
  induction params generalizing n t with
  | nil => exact emits_nil
  | cons name rest ih =>
    refine .of_grows (.declare here.scope name .refl) fun ht hs => ?_
    have hpush : Emits here (t.declare here.scope name) (here.emit [.pushArg n.toUInt64]) _ 0 1 :=
      emits_op rfl rfl fun _ _ _ _ _ _ => rfl
    exact (hpush.append (emits_setLocal (ScopeTree.bound_declare ht hs))).append (ih (n + 1) _)

/-! ## Expressions -/

namespace Expr

/-- The number of arguments that a call is written with. -/
def argCount : Expr → Nat
  | call _ _ args | iter _ _ args _ _ | yield args => args.length
  | _ => 0

/-- Every list of arguments in the expression is one that the machine can count. -/
def Countable (c : Setting) (e : Expr) : Prop := Everywhere (fun _ e => e.argCount < 2 ^ 63) c e

/-- The limit on arguments holds of the form and of its parts. -/
theorem countable_iff {c : Setting} {e : Expr} :
    Countable c e ↔ e.argCount < 2 ^ 63 ∧ ∀ x ∈ e.parts c, Countable x.1 x.2 :=
  everywhere_iff

theorem sizeOf_lt_of_mem_parts {c : Setting} {e : Expr} {x : Setting × Expr} (h : x ∈ e.parts c) :
    sizeOf x.2 < sizeOf e := by
  have hlist : ∀ {es : List Expr}, x.2 ∈ es → sizeOf x.2 < sizeOf es := List.sizeOf_lt_of_mem
  have hoption : ∀ {o : Option Expr}, o = some x.2 → sizeOf x.2 < sizeOf o := by
    rintro _ rfl
    simp
  cases e <;> simp [parts, Prod.ext_iff] at h
  all_goals grind

/-- There are fewer arguments than there is text. -/
theorem argCount_lt_sizeOf (e : Expr) : e.argCount < sizeOf e := by
  have hlist : ∀ es : List Expr, es.length < sizeOf es := by
    intro es
    induction es with
    | nil => simp
    | cons e es ih =>
      rw [List.length_cons, List.cons.sizeOf_spec]
      omega
  cases e <;> simp [argCount]
  all_goals grind

/-- Every expression that can be written down is one whose arguments can be counted. -/
theorem countable_of_sizeOf_lt {c : Setting} {e : Expr} (h : sizeOf e < 2 ^ 63) :
    Countable c e := by
  refine countable_iff.mpr ⟨Nat.lt_trans (argCount_lt_sizeOf e) h, fun x hx => ?_⟩
  have := sizeOf_lt_of_mem_parts hx
  exact countable_of_sizeOf_lt (Nat.lt_trans this h)
termination_by sizeOf e

theorem toNat_toUInt64 {n : Nat} (hn : n < 2 ^ 63) : n.toUInt64.toNat = n := by
  rw [Nat.toUInt64, UInt64.toNat_ofNat']
  exact Nat.mod_eq_of_lt (by omega)

variable {explicit : Bool}

/-- A constant is one value more. -/
theorem emits_push (op : Op) (h : op.isPurePush = true) : Emits here t (here.emit [op]) t 0 1 := by
  refine emits_op (takesBlock_of_isPurePush h) (effect?_of_isPurePush h) fun _ _ _ _ _ _ => ?_
  cases op <;> first | rfl | cases h

theorem emits_pop : Emits here t (here.emit [.pop]) t 1 0 :=
  emits_op rfl rfl fun _ _ _ _ _ _ => rfl

theorem emits_dup : Emits here t (here.emit [.dup]) t 1 2 :=
  emits_op rfl rfl fun _ _ _ _ _ _ => rfl

/-- A message takes its receiver, if there is one, and its arguments. -/
theorem emits_send {name : String} {n : Nat} (hn : n < 2 ^ 63) :
    Emits here t (here.emit [.send name n.toUInt64 explicit false]) t (explicit.toNat + n) 1 := by
  have hcount := toNat_toUInt64 hn
  refine emits_op rfl ?_ fun _ _ _ _ _ _ => ?_
  · rw [Op.effect?_send (by omega), hcount]
    rfl
  · exact decide_eq_true (by omega)

theorem emits_reserved {name : String} (h : reserved? name = some op) :
    Emits here t (here.emit [op]) t 0 0 := by
  unfold reserved? at h
  split at h
  case h_4 => cases h
  all_goals
    cases h
    exact emits_op rfl rfl fun _ _ _ _ _ _ => rfl

theorem emits_checkArgs (expected : UInt64) : Emits here t (here.emit [.checkArgs expected]) t 0 0 :=
  emits_op rfl rfl fun _ _ _ _ _ _ => rfl

/-- The current receiver has no code, and any other one is lowered like an expression. -/
theorem lowerReceiver_some_eq_ok {e : Expr} {t' : ScopeTree} {code : List Instruction}
    (h : lowerReceiver here t (some e) = .ok (code, explicit, t')) :
    (e = .self ∧ code = [] ∧ explicit = false ∧ t' = t) ∨
      (e ≠ .self ∧ explicit = true ∧ lower here t e = .ok (code, t')) := by
  unfold lowerReceiver at h
  split at h
  · rename_i heq
    cases heq
  · rename_i heq
    cases heq
    cases h
    exact .inl ⟨rfl, rfl, rfl, rfl⟩
  · rename_i hself heq
    cases heq
    obtain ⟨⟨inner, t₁⟩, h₁, h⟩ := bind_eq_ok h
    cases h
    exact .inr ⟨hself, rfl, h₁⟩

mutual

/-- **The code of an expression leaves one value** and keeps to the discipline. -/
theorem emits_lower {here : Place} {t t' : ScopeTree} {code : List Instruction} (e : Expr)
    (hc : Countable here.setting e) (h : lower here t e = .ok (code, t')) : Emits here t code t' 0 1 := by
  obtain ⟨hn, hparts⟩ := countable_iff.mp hc
  cases e with
  | int n => cases h; exact emits_push _ rfl
  | str s => cases h; exact emits_push _ rfl
  | sym s => cases h; exact emits_push _ rfl
  | nil => cases h; exact emits_push _ rfl
  | bool b => cases h; exact emits_push _ (by cases b <;> rfl)
  | self => cases h; exact emits_push _ rfl
  | gvar name => cases h; exact emits_op rfl rfl fun _ _ _ _ _ _ => rfl
  | var name =>
    unfold lower at h
    split at h
    · rename_i hb
      cases h
      exact .of_grows .refl fun ht _ => emits_getLocal ((ScopeTree.isBound_iff ht.toSound).mp hb)
    · cases h
      exact emits_send (n := 0) (by decide)
  | assign name value =>
    unfold lower at h
    obtain ⟨⟨inner, t₁⟩, h₁, h⟩ := bind_eq_ok h
    cases h
    have hv : Countable here.setting value := hparts _ List.mem_cons_self
    -- the name is bound from here on, whether it was before or not
    obtain ⟨n, hn, hbound⟩ : ∃ n, t.Grows n
        (if t.isBound here.scope name then t else t.declare here.scope name) ∧
        (t.Proper → here.scope.index < t.size → ScopeTree.Bound
          (if t.isBound here.scope name then t else t.declare here.scope name)
          here.scope name false) := by
      split
      · rename_i hb
        exact ⟨0, .refl, fun ht _ => (ScopeTree.isBound_iff ht.toSound).mp hb⟩
      · exact ⟨0, .declare _ _ .refl, fun ht hs => ScopeTree.bound_declare ht hs⟩
    refine .of_grows hn fun ht hs => (emits_lower value hv h₁).andThen fun _ _ hg => ?_
    obtain ⟨m, hm⟩ := hg
    have hset : Emits here t' (here.emit [.setLocal name false]) t' 1 0 :=
      emits_setLocal ((hbound ht hs).extends hm.extends)
    exact emits_dup.append (hset.frame 1)
  | gassign name value =>
    unfold lower at h
    obtain ⟨⟨inner, t₁⟩, h₁, h⟩ := bind_eq_ok h
    cases h
    have hv : Countable here.setting value := hparts _ List.mem_cons_self
    have hset : Emits here t' (here.emit [.setGlobal name]) t' 1 0 :=
      emits_op rfl rfl fun _ _ _ _ _ _ => rfl
    exact (emits_lower value hv h₁).append (emits_dup.append (hset.frame 1))
  | call receiver name args =>
    unfold lower at h
    split at h
    · rename_i op _ hop
      cases h
      exact (emits_reserved hop).append (emits_push _ rfl)
    · obtain ⟨⟨target, explicit, t₁⟩, h₁, h⟩ := bind_eq_ok h
      obtain ⟨⟨inner, t₂⟩, h₂, h⟩ := bind_eq_ok h
      cases h
      obtain ⟨hr, ha⟩ := forall_parts_call.mp hparts
      have hcall := (emits_lowerReceiver receiver hr h₁).beside (emits_lowerAll _ ha h₂)
      exact hcall.append (emits_send hn)
  | iter receiver name args params body =>
    unfold lower at h
    obtain ⟨⟨target, explicit, t₁⟩, h₁, h⟩ := bind_eq_ok h
    obtain ⟨⟨inner, t₂⟩, h₂, h⟩ := bind_eq_ok h
    obtain ⟨⟨content, t₃⟩, h₃, h⟩ := bind_eq_ok h
    cases h
    obtain ⟨hr, ha, hb⟩ := forall_parts_iter.mp hparts
    have hcall := (emits_lowerReceiver receiver hr h₁).beside (emits_lowerAll args ha h₂)
    have hbody := (emits_bindParams _ 0 params _).append (emits_lowerBody body (by exact hb) h₃)
    have hcount : args.length.toUInt64.toNat = args.length := toNat_toUInt64 hn
    have heffect : (Op.send name args.length.toUInt64 explicit true).effect? =
        some (explicit.toNat + args.length + 1, 1) := by
      rw [Op.effect?_send (by rw [hcount]; exact hn), hcount]
      rfl
    have := hcall.append (emits_blockCall hbody (by rw [hcount]; exact hn) heffect)
    simp only [List.append_assoc] at this ⊢
    exact this
  | yield args =>
    unfold lower at h
    obtain ⟨⟨inner, t₁⟩, h₁, h⟩ := bind_eq_ok h
    cases h
    have ha : ∀ x ∈ args, Countable here.setting x := fun x hx => hparts _ (List.mem_map_of_mem hx)
    have hcount : args.length.toUInt64.toNat = args.length := toNat_toUInt64 hn
    have hyield : Emits here t' (here.emit [.yield args.length.toUInt64]) t' args.length 1 :=
      emits_op rfl (by rw [Op.effect?, hcount]) fun _ _ _ _ _ _ => rfl
    exact (emits_lowerAll args ha h₁).append hyield
  | cond test yes no =>
    unfold lower at h
    obtain ⟨⟨testCode, t₁⟩, h₁, h⟩ := bind_eq_ok h
    obtain ⟨⟨yesCode, t₂⟩, h₂, h⟩ := bind_eq_ok h
    obtain ⟨⟨noCode, t₃⟩, h₃, h⟩ := bind_eq_ok h
    cases h
    obtain ⟨ht, hy, hno⟩ := forall_parts_cond.mp hparts
    have hyes := Emits.hoisted (emits_lowerOption yes hy h₂)
    have hno := Emits.hoisted (emits_lowerOption no hno h₃)
    have := (emits_lower test ht h₁).append (emits_cond hyes hno)
    simp only [List.append_assoc] at this ⊢
    exact this
  | loop test body =>
    unfold lower at h
    obtain ⟨⟨testCode, t₁⟩, h₁, h⟩ := bind_eq_ok h
    obtain ⟨⟨bodyCode, t₂⟩, h₂, h⟩ := bind_eq_ok h
    cases h
    obtain ⟨ht, hb⟩ := forall_parts_loop.mp hparts
    have := (emits_loop (emits_lower test ht h₁) (emits_lowerStatements body hb h₂)).append
      (emits_push .pushNil rfl)
    simp only [List.append_assoc] at this ⊢
    exact this
  | conj left right =>
    unfold lower at h
    obtain ⟨⟨leftCode, t₁⟩, h₁, h⟩ := bind_eq_ok h
    obtain ⟨⟨rightCode, t₂⟩, h₂, h⟩ := bind_eq_ok h
    cases h
    have hl := hparts _ List.mem_cons_self
    have hr := hparts _ (List.mem_cons_of_mem _ List.mem_cons_self)
    have hyes := Emits.hoisted (emits_pop.append (emits_lower right hr h₂))
    have := ((emits_lower left hl h₁).append emits_dup).append (emits_cond hyes emits_nil)
    simp only [List.append_assoc] at this ⊢
    exact this
  | disj left right =>
    unfold lower at h
    obtain ⟨⟨leftCode, t₁⟩, h₁, h⟩ := bind_eq_ok h
    obtain ⟨⟨rightCode, t₂⟩, h₂, h⟩ := bind_eq_ok h
    cases h
    have hl := hparts _ List.mem_cons_self
    have hr := hparts _ (List.mem_cons_of_mem _ List.mem_cons_self)
    have hno := Emits.hoisted (emits_pop.append (emits_lower right hr h₂))
    have := ((emits_lower left hl h₁).append emits_dup).append (emits_cond emits_nil hno)
    simp only [List.append_assoc] at this ⊢
    exact this
  | neg operand =>
    unfold lower at h
    obtain ⟨⟨inner, t₁⟩, h₁, h⟩ := bind_eq_ok h
    cases h
    have ho : Countable here.setting operand := hparts _ List.mem_cons_self
    exact (emits_lower operand ho h₁).append
      (emits_cond (emits_push .pushFalse rfl) (emits_push .pushTrue rfl))
  | seq items =>
    have hi : ∀ x ∈ items, Countable here.setting x := fun x hx => hparts _ (List.mem_map_of_mem hx)
    exact emits_lowerBody items hi h
  | ret value =>
    unfold lower at h
    split at h
    · cases h
    rename_i hb
    obtain ⟨⟨inner, t₁⟩, h₁, h⟩ := bind_eq_ok h
    cases h
    have hv : ∀ x ∈ value, Countable here.setting x :=
      fun x hx => hparts _ (List.mem_map_of_mem (Option.mem_toList.mpr hx))
    have hret : Emits here t' (here.emit [.ret]) t' 1 0 :=
      emits_op rfl rfl fun _ _ _ _ _ hp => decide_eq_true (by rw [hp.body]; exact hb)
    exact (emits_lowerOption value hv h₁).append (hret.append (emits_push .pushNil rfl))
  | brk =>
    unfold lower at h
    split at h
    · rename_i hl
      cases h
      have hbreak : Emits here t (here.emit [.breakOut]) t 0 0 :=
        emits_op rfl rfl fun _ _ _ _ _ hp => hp.loop.trans hl
      exact hbreak.append (emits_push .pushNil rfl)
    · cases h
  | next value =>
    have hv : ∀ x ∈ value, Countable here.setting x :=
      fun x hx => hparts _ (List.mem_map_of_mem (Option.mem_toList.mpr hx))
    unfold lower at h
    split at h
    · rename_i hl
      obtain ⟨⟨inner, t₁⟩, h₁, h⟩ := bind_eq_ok h
      cases h
      have hnext : Emits here t' (here.emit [.next false]) t' 0 0 :=
        emits_op rfl rfl fun _ _ _ _ _ hp => hp.loop.trans hl
      exact (emits_lowerDropped value hv h₁).append (hnext.append (emits_push .pushNil rfl))
    · rename_i hl
      split at h
      · rename_i hb
        obtain ⟨⟨inner, t₁⟩, h₁, h⟩ := bind_eq_ok h
        cases h
        have hnext : Emits here t' (here.emit [.next true]) t' 1 0 :=
          emits_op rfl rfl fun _ _ _ _ _ hp => by
            have hl' := hp.loop
            have hb' := hp.body
            simp_all [Op.fits]
        exact (emits_lowerOption value hv h₁).append (hnext.append (emits_push .pushNil rfl))
      · cases h
  | method name params body =>
    unfold lower at h
    obtain ⟨⟨inner, t₁⟩, h₁, h⟩ := bind_eq_ok h
    cases h
    have hb : ∀ x ∈ body, Countable { body := .method } x :=
      fun x hx => hparts _ (List.mem_map_of_mem hx)
    have := emits_method name ((emits_checkArgs params.length.toUInt64).append
      ((emits_bindParams _ 0 params _).append (emits_lowerBody body hb h₁)))
    simp only [List.append_assoc] at this ⊢
    exact this

theorem emits_lowerOption {here : Place} {t t' : ScopeTree} {code : List Instruction} (o : Option Expr)
    (hc : ∀ x ∈ o, Countable here.setting x)
    (h : lowerOption here t o = .ok (code, t')) : Emits here t code t' 0 1 := by
  cases o with
  | none =>
    cases h
    exact emits_push _ rfl
  | some e => exact emits_lower e (hc e rfl) h

theorem emits_lowerDropped {here : Place} {t t' : ScopeTree} {code : List Instruction} (o : Option Expr)
    (hc : ∀ x ∈ o, Countable here.setting x)
    (h : lowerDropped here t o = .ok (code, t')) : Emits here t code t' 0 0 := by
  cases o with
  | none =>
    cases h
    exact emits_nil
  | some e =>
    unfold lowerDropped at h
    obtain ⟨⟨inner, t₁⟩, h₁, h⟩ := bind_eq_ok h
    cases h
    exact (emits_lower e (hc e rfl) h₁).append emits_pop

/-- A receiver that is `self` leaves nothing. -/
theorem emits_lowerReceiver {here : Place} {t t' : ScopeTree} {code : List Instruction}
    {explicit : Bool} (o : Option Expr) (hc : ∀ x ∈ o, Countable here.setting x)
    (h : lowerReceiver here t o = .ok (code, explicit, t')) :
    Emits here t code t' 0 explicit.toNat := by
  cases o with
  | none =>
    cases h
    exact emits_nil
  | some e =>
    rcases lowerReceiver_some_eq_ok h with ⟨-, rfl, rfl, rfl⟩ | ⟨-, rfl, h₁⟩
    · exact emits_nil
    · exact emits_lower e (hc e rfl) h₁

theorem emits_lowerAll {here : Place} {t t' : ScopeTree} {code : List Instruction} (es : List Expr)
    (hc : ∀ x ∈ es, Countable here.setting x)
    (h : lowerAll here t es = .ok (code, t')) : Emits here t code t' 0 es.length := by
  cases es with
  | nil =>
    cases h
    exact emits_nil
  | cons e rest =>
    unfold lowerAll at h
    obtain ⟨⟨inner, t₁⟩, h₁, h⟩ := bind_eq_ok h
    obtain ⟨⟨more, t₂⟩, h₂, h⟩ := bind_eq_ok h
    cases h
    have hfirst := emits_lower e (hc e (by simp)) h₁
    have hrest := emits_lowerAll rest (fun x hx => hc x (by simp [hx])) h₂
    rw [List.length_cons, Nat.add_comm]
    exact hfirst.beside hrest

/-- Statements leave nothing: each drops its value. -/
theorem emits_lowerStatements {here : Place} {t t' : ScopeTree} {code : List Instruction} (es : List Expr)
    (hc : ∀ x ∈ es, Countable here.setting x)
    (h : lowerStatements here t es = .ok (code, t')) : Emits here t code t' 0 0 := by
  cases es with
  | nil =>
    cases h
    exact emits_nil
  | cons e rest =>
    unfold lowerStatements at h
    obtain ⟨⟨inner, t₁⟩, h₁, h⟩ := bind_eq_ok h
    obtain ⟨⟨more, t₂⟩, h₂, h⟩ := bind_eq_ok h
    cases h
    have hfirst := emits_lower e (hc e (by simp)) h₁
    have hrest := emits_lowerStatements rest (fun x hx => hc x (by simp [hx])) h₂
    exact (hfirst.append emits_pop).append hrest

/-- A body leaves the value of its last statement, or `nil`. -/
theorem emits_lowerBody {here : Place} {t t' : ScopeTree} {code : List Instruction} (es : List Expr)
    (hc : ∀ x ∈ es, Countable here.setting x)
    (h : lowerBody here t es = .ok (code, t')) : Emits here t code t' 0 1 := by
  cases es with
  | nil =>
    cases h
    exact emits_push _ rfl
  | cons e rest =>
    cases rest with
    | nil => exact emits_lower e (hc e (by simp)) h
    | cons e' rest =>
      unfold lowerBody at h
      obtain ⟨⟨inner, t₁⟩, h₁, h⟩ := bind_eq_ok h
      obtain ⟨⟨more, t₂⟩, h₂, h⟩ := bind_eq_ok h
      cases h
      have hfirst := emits_lower e (hc e (by simp)) h₁
      have hrest := emits_lowerBody (e' :: rest) (fun x hx => hc x (List.mem_cons_of_mem _ hx)) h₂
      exact (hfirst.append emits_pop).append hrest

end

end Expr

end StackCode
