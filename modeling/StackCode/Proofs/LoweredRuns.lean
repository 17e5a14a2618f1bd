import StackCode.Proofs.CompiledRuns
import StackCode.Proofs.Correspondence
import StackCode.Proofs.PeepholeRuns

/-!
# Lowered code does what the text says

The code that an expression is lowered to comes to what the evaluator makes of the expression. The
induction is on the expression, with one rule of correspondence for each form, and around it on how
deep calls may still be nested.
-/

namespace StackCode.Machine

open ScopeTree (Binds Hoists)
open Eval (World Compute)

variable {T t t' t₁ t₂ : ScopeTree} {cx : Setup} {c : Scene} {d : Nat} {here : Place}
  {below : List Value} {names names₁ names₂ : Names} {code : List Instruction} {r : ScopeId}

/-! ## Code that is nested -/

/-- Code that lowering emits is nested. -/
theorem wellNested_of_emits {a b : Nat} (h : Emits here t code t' a b) (ht : t.Proper)
    (hs : here.scope.index < t.size) (hT : Finished t' T) (hr : Hoists T here.scope r) :
    WellNested code := by
  obtain ⟨-, hreads⟩ := h ht hs
  let p : Point := ⟨⟨here.body, if here.inLoop then some 0 else none, r⟩, a, false⟩
  have hp : Stands T here p := by
    refine ⟨rfl, ?_, hr.target hT.proper.toSound, rfl⟩
    show (if here.inLoop then some 0 else none : Option Nat).isSome = here.inLoop
    cases here.inLoop <;> rfl
  have hfloor : p.floor ≤ 0 := by
    show (if here.inLoop then some 0 else none : Option Nat).getD 0 ≤ 0
    cases here.inLoop <;> exact Nat.le_refl _
  exact ⟨_, _, _, nested_of_scan (hreads T hT p [] 0 hp (Nat.zero_add a).symm hfloor)⟩

theorem Settled.wellNested {a b : Nat} (hT : Settled t' T) (here : Place)
    (hv : View t here.scope r names)
    (h : Emits here t code t' a b) : WellNested code := by
  obtain ⟨⟨n, hg⟩, -⟩ := h hv.proper hv.owner.index_lt
  exact wellNested_of_emits h hv.proper hv.owner.index_lt hT.toFinished
    (hv.owner.extends (hg.extends.trans hT.grown))

theorem Settled.hoists (hT : Settled t' T) (hv : View t' here.scope r names) :
    Hoists T here.scope r :=
  hv.owner.extends hT.grown

/-- Between two pieces of code. -/
theorem Settled.between {s : ScopeId} (hT : Settled t₂ T) (h₁ : Declaring s t t₁ names names₁)
    (h₂ : Declaring s t₁ t₂ names₁ names₂) (hv : View t s r names) :
    Settled t₁ T ∧ View t₁ s r names₁ := by
  have hsmall := hT.size_le
  have hview := hv.after (h₁.declares (Nat.le_trans h₂.size_le hsmall) r hv)
  exact ⟨hT.of_evolves (h₂.declares hsmall r hview).toEvolves, hview⟩

/-- There was room for the scope of a branch. -/
theorem Settled.size_lt_of_push (hT : Settled t' T) (outer : ScopeId) {s : ScopeId}
    (h : Declaring s (t.push outer .hoisted).1 t' names names₁) : t.size < 2 ^ 32 := by
  have hle := h.size_le
  rw [ScopeTree.size_push] at hle
  exact Nat.lt_of_lt_of_le hle hT.size_le

/-- Both sides of a short circuit: the right one has a scope of its own, and drops the value of the
left one first. -/
theorem Settled.sides {left right : Expr} {leftCode rightCode : List Instruction}
    (hT : Settled t' T) (hv : View t here.scope r names) (hl : Fits here.setting left)
    (hr : Fits here.setting right) (h₁ : Expr.lower here t left = .ok (leftCode, t₁))
    (h₂ : Expr.lower { here with scope := (t₁.push here.scope .hoisted).2 }
      (t₁.push here.scope .hoisted).1 right = .ok (rightCode, t')) :
    Settled t₁ T ∧
      View (t₁.push here.scope .hoisted).1 (t₁.push here.scope .hoisted).2 r
        (names.declareAll (Expr.assigned left)) ∧
      WellNested leftCode ∧
      WellNested (⟨.pop, (t₁.push here.scope .hoisted).2⟩ :: rightCode) := by
  have hdleft := Expr.declaring_lower names left h₁
  have hdright := Expr.declaring_lower (names.declareAll (Expr.assigned left)) right h₂
  obtain ⟨hT₁, hv₁⟩ := hT.between hdleft hdright.hoisted hv
  have hvright := (hv₁.hoisted (hT.size_lt_of_push here.scope hdright)).2
  refine ⟨hT₁, hvright, hT₁.wellNested here hv (Expr.emits_lower left hl.countable h₁), ?_⟩
  exact hT.wellNested { here with scope := (t₁.push here.scope .hoisted).2 } hvright
    (Expr.emits_pop.append (Expr.emits_lower right hr.countable h₂))

/-! ## Bodies of methods and blocks -/

section

variable {inside : Place} {kind : ScopeKind} {params : List String} {text : List Expr}
  {inner : List Instruction} {s : ScopeId}

/-- There was room for the scope of the body. -/
theorem Settled.size_lt (hT : Settled t' T)
    (h : Expr.lowerBody inside (Expr.bindParams inside 0 params (t.push s kind).1).2 text =
      .ok (inner, t')) : t.size < 2 ^ 32 := by
  have hle := (Expr.declaring_lowerBody [] text h).size_le
  rw [size_bindParams, ScopeTree.size_push] at hle
  exact Nat.lt_of_lt_of_le hle hT.size_le

/-- The scope of a body, in the finished tree. -/
theorem Settled.opened (hT : Settled t' T) (hv : View t s r names) (hkind : kind ≠ .hoisted)
    (hscope : inside.scope = (t.push s kind).2)
    (hview : View (Expr.bindParams inside 0 params (t.push s kind).1).2 inside.scope inside.scope
      names₁)
    (h : Expr.lowerBody inside (Expr.bindParams inside 0 params (t.push s kind).1).2 text =
      .ok (inner, t')) :
    (∀ name ∈ params, ∃ slot, Binds T name true inside.scope 0 inside.scope slot) ∧
    ∃ scope, T.get? inside.scope = some scope ∧ scope.hoist = false ∧
      scope.block = (kind != .method) ∧ scope.outer = some s := by
  have hdeclaring := Expr.declaring_lowerBody names₁ text h
  have hdeclares := hdeclaring.declares hT.size_le _ hview
  have hsmall := hT.size_lt h
  obtain ⟨-, -, scope, hget, hh, hb, ho, hlists⟩ :=
    bindParams_opened 0 params hv hsmall hkind hscope
  refine ⟨fun name hname => ?_, ?_⟩
  · obtain ⟨slot, hslot⟩ := hlists.get?_of_contains (List.contains_iff_mem.mpr hname)
    exact ⟨slot, hT.binds (hdeclares.binds (.here hget hh hslot))⟩
  · obtain ⟨scope', hget', hext⟩ := (hdeclares.extends.trans hT.grown).get? hget
    exact ⟨scope', hget', hext.hoist.trans hh, hext.block.trans hb, hext.outer.trans ho⟩

/-- The code of a body is nested. -/
theorem Settled.wellNested_body (hT : Settled t' T) (hv : View t s r names)
    (hscope : inside.scope = (t.push s kind).2) (hsmall : t.size < 2 ^ 32)
    (hhoists : Hoists T inside.scope inside.scope) (hfits : ∀ e ∈ text, Fits inside.setting e)
    (h : Expr.lowerBody inside (Expr.bindParams inside 0 params (t.push s kind).1).2 text =
      .ok (inner, t')) {pre : List Instruction}
    (hpre : Emits inside (t.push s kind).1 pre (t.push s kind).1 0 0) :
    WellNested (pre ++ (Expr.bindParams inside 0 params (t.push s kind).1).1 ++ inner) := by
  have hemits := (hpre.append (emits_bindParams inside 0 params _)).append
    (Expr.emits_lowerBody text (fun x hx => (hfits x hx).countable) h)
  refine wellNested_of_emits hemits (ScopeTree.proper_push hv.proper hv.owner.index_lt) ?_
    hT.toFinished hhoists
  rw [hscope, index_push hsmall, ScopeTree.size_push]
  exact Nat.lt_succ_self _

end

/-- The body of a block that is written in the code. -/
theorem Settled.block {params : List String} {text : List Expr} {inner : List Instruction}
    {inside : Place} (hinside : inside = { scope := (t.push here.scope .block).2, body := .block })
    (hT : Settled t' T) (hv : View t here.scope r names) (hcount : params.length < 2 ^ 63)
    (hfits : ∀ e ∈ text, Fits inside.setting e)
    (h : Expr.lowerBody inside (Expr.bindParams inside 0 params (t.push here.scope .block).1).2
      text = .ok (inner, t')) :
    let body := (Expr.bindParams inside 0 params (t.push here.scope .block).1).1 ++ inner
    LoweredBody T inside params text (params :: names) body ∧
      Op.opensBlock T r inside.scope = true ∧ WellNested body := by
  have hscope : inside.scope = (t.push here.scope .block).2 := by rw [hinside]
  have hbody : inside.body = .block := by rw [hinside]
  have hloop : inside.inLoop = false := by rw [hinside]
  have hsmall := hT.size_lt h
  have hview : View (Expr.bindParams inside 0 params (t.push here.scope .block).1).2 inside.scope
      inside.scope (params :: names) := hv.block hsmall hscope
  obtain ⟨hbound, scope, hget, hh, hb, ho⟩ := hT.opened hv (by decide) hscope hview h
  have htarget : T.hoistTarget? here.scope = some r := by
    refine Hoists.target hT.proper.toSound ?_
    exact hv.owner.extends (((bindParams_opened 0 params hv hsmall (by decide) hscope).1.extends.trans
      ((Expr.declaring_lowerBody _ text h).declares hT.size_le _ hview).extends).trans hT.grown)
  refine ⟨⟨hloop, hcount, hfits, hbound, _, _, inner, hview, h, hT, ?_⟩, ?_, ?_⟩
  · rw [arityCode, if_neg (by rw [hbody]; decide), bindParams_code]
    rfl
  · exact Op.opensBlock_iff.mpr ⟨scope, _, hget, hh, hb, ho, htarget⟩
  · exact hT.wellNested_body hv hscope hsmall (.self hget hh) hfits h emits_nil

/-- The body of a method that is written in the code. -/
theorem Settled.method {params : List String} {text : List Expr} {inner : List Instruction}
    {inside : Place} (hinside : inside = { scope := (t.push here.scope .method).2, body := .method })
    (hT : Settled t' T) (hv : View t here.scope r names) (hcount : params.length < 2 ^ 63)
    (hfits : ∀ e ∈ text, Fits inside.setting e)
    (h : Expr.lowerBody inside (Expr.bindParams inside 0 params (t.push here.scope .method).1).2
      text = .ok (inner, t')) :
    let body := inside.emit [.checkArgs params.length.toUInt64] ++
      (Expr.bindParams inside 0 params (t.push here.scope .method).1).1 ++ inner
    LoweredBody T inside params text [params] body ∧
      Op.opensMethod T inside.scope = true ∧ WellNested body := by
  have hscope : inside.scope = (t.push here.scope .method).2 := by rw [hinside]
  have hbody : inside.body = .method := by rw [hinside]
  have hloop : inside.inLoop = false := by rw [hinside]
  have hsmall := hT.size_lt h
  have hview : View (Expr.bindParams inside 0 params (t.push here.scope .method).1).2 inside.scope
      inside.scope [params] := hv.method hsmall hscope
  obtain ⟨hbound, scope, hget, hh, hb, ho⟩ := hT.opened hv (by decide) hscope hview h
  refine ⟨⟨hloop, hcount, hfits, hbound, _, _, inner, hview, h, hT, ?_⟩, ?_, ?_⟩
  · rw [arityCode, if_pos hbody, bindParams_code]
  · exact Op.opensMethod_iff.mpr ⟨scope, hget, hh, hb⟩
  · exact hT.wellNested_body hv hscope hsmall (.self hget hh) hfits h (Expr.emits_checkArgs _)

/-! ## Expressions -/

/-- What the code of a call relies on: calls inside it agree with the evaluator, and the operands of
the call are above its base. -/
structure Agreed (T : ScopeTree) (cx : Setup) (c : Scene) (d : Nat) (below : List Value) : Prop where
  unlimited : cx.Unlimited
  scopes : cx.scopes = T
  calls : CallsAgree T cx d
  depth : cx.limits.callDepth = c.outer.length + d
  base : c.frame.base ≤ below.length

theorem Agreed.above (h : Agreed T cx c d below) (more : List Value) :
    Agreed T cx c d (more ++ below) :=
  ⟨h.unlimited, h.scopes, h.calls, h.depth,
    Nat.le_trans h.base (by rw [List.length_append]; omega)⟩

namespace Scene

/-- An expression, evaluated in the call. -/
abbrev eval (c : Scene) (d : Nat) (names : Names) (e : Expr) : Nat → Compute Value :=
  fun n => Eval.eval n (Eval.invoke n d) c.context names e

/-- An expression that may be missing, evaluated in the call. -/
abbrev evalOption (c : Scene) (d : Nat) (names : Names) (e : Option Expr) : Nat → Compute Value :=
  fun n => Eval.evalOption n (Eval.invoke n d) c.context names e

/-- A receiver, evaluated in the call. -/
abbrev evalReceiver (c : Scene) (d : Nat) (names : Names) (e : Option Expr) :
    Nat → Compute (Option Value) :=
  fun n => Eval.evalReceiver n (Eval.invoke n d) c.context names e

/-- Expressions, evaluated in the call. -/
abbrev evalAll (c : Scene) (d : Nat) (names : Names) (es : List Expr) :
    Nat → Compute (List Value) :=
  fun n => Eval.evalAll n (Eval.invoke n d) c.context names es

/-- Expressions without value, evaluated in the call. -/
abbrev evalStatements (c : Scene) (d : Nat) (names : Names) (es : List Expr) :
    Nat → Compute Unit :=
  fun n => Eval.evalStatements n (Eval.invoke n d) c.context names es

/-- A sequence, evaluated in the call. -/
abbrev evalBody (c : Scene) (d : Nat) (names : Names) (es : List Expr) : Nat → Compute Value :=
  fun n => Eval.evalBody n (Eval.invoke n d) c.context names es

end Scene

section

variable (c : Scene) (d : Nat) (names : Names)

theorem steady_eval (e : Expr) : Steady (c.eval d names e) := fun n =>
  Eval.improves_eval (fun inv => steady_invoke d inv n) (Nat.le_succ n) names e

theorem steady_evalOption (e : Option Expr) : Steady (c.evalOption d names e) := fun n =>
  Eval.improves_evalOption (fun inv => steady_invoke d inv n) (Nat.le_succ n) names e

theorem steady_evalReceiver (e : Option Expr) : Steady (c.evalReceiver d names e) := fun n =>
  Eval.improves_evalReceiver (fun inv => steady_invoke d inv n) (Nat.le_succ n) names e

theorem steady_evalAll (es : List Expr) : Steady (c.evalAll d names es) := fun n =>
  Eval.improves_evalAll (fun inv => steady_invoke d inv n) (Nat.le_succ n) names es

theorem steady_evalStatements (es : List Expr) : Steady (c.evalStatements d names es) := fun n =>
  Eval.improves_evalStatements (fun inv => steady_invoke d inv n) (Nat.le_succ n) names es

theorem steady_evalBody (es : List Expr) : Steady (c.evalBody d names es) := fun n =>
  Eval.improves_evalBody (fun inv => steady_invoke d inv n) (Nat.le_succ n) names es

theorem steady_evalSend (receiver : Option Value) (message : String) (args : List Value)
    (block : Option Eval.Block) :
    Steady fun n => Eval.send (Eval.invoke n d) c.context receiver message args block := fun n =>
  Eval.improves_evalSend (fun inv => steady_invoke d inv n) receiver message args block

end

/-- A value that is there already. -/
theorem simulates_value (v : Value) :
    Simulates T cx c here below (v :: below) (fun _ => pure v) [] fun v => [v] :=
  simulates_pure (fun v => [v]) v

/-- An instruction that pushes a constant. -/
theorem simulates_push (hcx : cx.Unlimited) {i : Instruction} {v : Value}
    (hp : Performs cx i fun _ => push v) :
    Simulates T cx c here below below (fun _ => pure v) [i] fun v => [v] :=
  .act hcx hp (fun _ _ _ hs => ⟨_, rfl, hs.push v⟩) (simulates_value v)

theorem simulates_pushNil (hcx : cx.Unlimited) :
    Simulates T cx c here below below (fun _ => pure .nil) (here.emit [.pushNil]) fun v => [v] :=
  simulates_push hcx fun _ _ _ => rfl

theorem simulates_pushSelf (hcx : cx.Unlimited) :
    Simulates T cx c here below below (fun _ => pure c.context.self) (here.emit [.pushSelf])
      fun v => [v] := by
  have hp : Performs cx ⟨.pushSelf, here.scope⟩ (fun index => do push (← frame index).self) :=
    fun _ _ _ => rfl
  refine .act hcx hp (fun index _ _ hs => ⟨_, bind_of_eq_ok (frame_of_frames hs.frames index), ?_⟩)
    (simulates_value _)
  rw [c.self_eq]
  exact hs.push _

theorem simulates_getGlobal (hcx : cx.Unlimited) (name : String) :
    Simulates T cx c here below below
      (fun _ => do return ((← get).globals.get? name).getD .nil)
      (here.emit [.getGlobal name]) fun v => [v] := by
  have hp : Performs cx ⟨.getGlobal name, here.scope⟩
      (fun _ => do push (((← get).globals.get? name).getD .nil)) := fun _ _ _ => rfl
  refine simulates_read hcx hp fun _ w s hs => ⟨_, rfl, ?_⟩
  rw [← hs.like.globals]
  exact hs.push _

/-- A variable that can be seen. -/
theorem simulates_getLocal (ha : Agreed T cx c d below) (hv : View t here.scope c.home names)
    (hT : Settled t T) {name : String} {k : Nat} (hk : names.level? name = some k) :
    Simulates T cx c here below below (fun _ => do return (← get).read c.context.locals k name)
      (here.emit [.getLocal name]) fun v => [v] := by
  obtain ⟨r, slot, hb⟩ := hv.shows.binds hk
  have hbinds := hT.binds (hv.owner.binds_iff.mpr hb)
  exact simulates_read ha.unlimited (performs_getLocal cx name here.scope) fun index _ _ hs =>
    hs.getLocal hT.proper ha.scopes hbinds (hT.hoists hv) index

/-- The end of an assignment. -/
theorem simulates_assign (ha : Agreed T cx c d below) (hv : View t here.scope c.home names)
    (hT : Settled t T) {name : String} {k : Nat} (hk : names.level? name = some k) (v : Value) :
    Simulates T cx c here below ([v] ++ below)
      (fun _ => do modify (·.assign c.context.locals k name v); return v)
      (here.emit [.dup, .setLocal name false]) fun v => [v] := by
  obtain ⟨r, slot, hb⟩ := hv.shows.binds hk
  have hbinds := hT.binds (hv.owner.binds_iff.mpr hb)
  refine .act ha.unlimited (performs_dup rfl) (fun index _ _ hs => hs.dup ha.base index) ?_
  refine .change ha.unlimited (performs_setLocal cx name false here.scope) (steady_const _)
    (fun index _ _ hs => ?_) (simulates_value v)
  exact hs.setLocal (Nat.le_succ_of_le ha.base) hT.proper ha.scopes hbinds (hT.hoists hv) index

/-- The end of an assignment to a global variable. -/
theorem simulates_gassign (ha : Agreed T cx c d below) (name : String) (v : Value) :
    Simulates T cx c here below ([v] ++ below)
      (fun _ => do modify fun w => { w with globals := w.globals.insert name v }
                   return v)
      (here.emit [.dup, .setGlobal name]) fun v => [v] := by
  have hp : Performs cx ⟨.setGlobal name, here.scope⟩ (fun index => do
      let v ← pop index
      modify fun s => { s with globals := s.globals.insert name v }) := fun _ _ _ => rfl
  refine .act ha.unlimited (performs_dup rfl) (fun index _ _ hs => hs.dup ha.base index) ?_
  refine .change ha.unlimited hp (steady_const _) (fun index w s hs => ?_) (simulates_value v)
  obtain ⟨hpop, hs'⟩ := hs.pop (Nat.le_succ_of_le ha.base) index
  refine ⟨_, bind_of_eq_ok hpop, hs'.update (hs'.like.withGlobal name v) rfl (.of_eq rfl rfl) rfl⟩

/-- A value that is dropped. -/
theorem Simulates.dropped {α : Type} {m : Nat → Compute α} {leave : α → List Value}
    (ha : Agreed T cx c d below) {v : Value} {scope : ScopeId}
    (h : Simulates T cx c here below below m code leave) :
    Simulates T cx c here below ([v] ++ below) m (⟨.pop, scope⟩ :: code) leave :=
  .act ha.unlimited (performs_pop rfl) (fun index _ _ hs =>
    ⟨_, bind_of_eq_ok (hs.pop ha.base index).1, (hs.pop ha.base index).2⟩) h

/-- Code whose value is dropped. -/
theorem Simulates.discarded {m : Nat → Compute Value} (ha : Agreed T cx c d below) (hm : Steady m)
    (hn : WellNested code) (h : Simulates T cx c here below below m code fun v => [v])
    (scope : ScopeId) :
    Simulates T cx c here below below m (code ++ [⟨.pop, scope⟩]) fun _ => [] := by
  have hpure : m = fun n => m n >>= fun v => pure v := funext fun n => (bind_pure _).symm
  rw [hpure]
  exact h.bind ha.unlimited hm (fun _ => steady_const _) hn fun v =>
    (simulates_pure (fun _ => []) v).dropped ha

/-- The opposite of a value. -/
theorem simulates_not (ha : Agreed T cx c d below) (v : Value) :
    Simulates T cx c here below ([v] ++ below) (fun _ => pure (.bool !v.isTruthy))
      (here.emit [.ifTrue, .pushFalse, .orElse, .pushTrue, .endBlock .cond]) fun v => [v] := by
  have hnested : ∀ b : Bool, WellNested (here.emit [if b then .pushTrue else .pushFalse]) := by
    intro b
    refine ⟨⟨fun _ _ => true, false⟩, .start .top .root, _, nested_of_scan (q := ?_) ?_⟩
    · exact (Point.start .top .root).atHeight 1
    · cases b <;> rfl
  have hpush : ∀ b : Bool, Simulates T cx c here below below (fun _ => pure (.bool b))
      (here.emit [if b then .pushTrue else .pushFalse]) fun v => [v] := by
    intro b
    exact simulates_push ha.unlimited (by cases b <;> exact fun _ _ _ => rfl)
  have hsim := simulates_cond (a := here.scope) (b := here.scope) (z := here.scope) (v := v)
    ha.unlimited (hnested false) (hnested true) ha.base (fun _ => hpush false) fun _ => hpush true
  cases hv : v.isTruthy with
  | true =>
    simp only [hv, if_true] at hsim
    exact hsim
  | false =>
    simp only [hv] at hsim
    exact hsim

/-! ### Signals -/

theorem simulates_ret (ha : Agreed T cx c d below) (hb : here.body ≠ .block) (v : Value) :
    Simulates T cx c here below ([v] ++ below) (fun _ => (Eval.leave (.ret v) : Compute Value))
      (here.emit [.ret, .pushNil]) fun v => [v] := by
  refine simulates_signal ha.unlimited (.ret hb) fun start w s hs => ?_
  obtain ⟨hpop, hs'⟩ := hs.pop ha.base start
  exact ⟨_, bind_of_eq_ok hpop, [], hs'⟩

theorem simulates_breakOut (ha : Agreed T cx c d below) (hl : here.inLoop = true) :
    Simulates T cx c here below below (fun _ => (Eval.leave .breakOut : Compute Value))
      (here.emit [.breakOut, .pushNil]) fun v => [v] :=
  simulates_signal ha.unlimited (.breakOut hl) fun _ _ s hs => ⟨s, rfl, [], hs⟩

theorem simulates_again (ha : Agreed T cx c d below) (hl : here.inLoop = true) (v : Value) :
    Simulates T cx c here below below (fun _ => (Eval.leave (.next (some v)) : Compute Value))
      (here.emit [.next false, .pushNil]) fun v => [v] :=
  simulates_signal ha.unlimited (.again hl) fun _ _ s hs => ⟨s, rfl, [], hs⟩

theorem simulates_finish (ha : Agreed T cx c d below) (hl : here.inLoop = false)
    (hb : here.body = .block) (v : Value) :
    Simulates T cx c here below ([v] ++ below)
      (fun _ => (Eval.leave (.next (some v)) : Compute Value))
      (here.emit [.next true, .pushNil]) fun v => [v] := by
  refine simulates_signal ha.unlimited (.finish hl hb) fun start w s hs => ?_
  obtain ⟨-, hs'⟩ := hs.pop ha.base start
  have hpop := somePop_of_stack hs.stack_eq (by rw [hs.base]; exact ha.base) start
  exact ⟨_, bind_of_eq_ok hpop, [], hs'⟩

/-- A call that is no message. -/
theorem simulates_directive (ha : Agreed T cx c d below) {name : String} {op : Op}
    {act : Compute Value} (hop : Expr.reserved? name = some op)
    (hact : Eval.directive? name = some act) :
    Simulates T cx c here below below (fun _ => act) (here.emit [op, .pushNil]) fun v => [v] := by
  have hvisibility : ∀ visibility, Simulates T cx c here below below
      (fun _ => Eval.setVisibility visibility)
      (here.emit [.setVisibility visibility, .pushNil]) fun v => [v] := by
    intro visibility
    have hp : Performs cx ⟨.setVisibility visibility, here.scope⟩
        (fun _ => modify fun s => { s with visibility }) := fun _ _ _ => rfl
    refine .change ha.unlimited hp (steady_const _) (fun index w s hs => ?_)
      (simulates_pushNil ha.unlimited)
    exact ⟨_, rfl, hs.update (hs.like.withVisibility visibility) rfl (.of_eq rfl rfl) hs.stack_eq⟩
  unfold Expr.reserved? at hop
  split at hop <;> cases hop <;> cases hact
  · exact simulates_signal ha.unlimited .halt fun _ _ s hs => ⟨s, rfl, [], hs⟩
  · exact hvisibility .everyone
  · exact hvisibility .selfOnly

theorem isSome_directive? (name : String) :
    (Eval.directive? name).isSome = (Expr.reserved? name).isSome := by
  unfold Eval.directive?
  split
  · rfl
  · rfl
  · rfl
  · rename_i hexit hpublic hprivate
    unfold Expr.reserved?
    split
    · exact (hexit rfl).elim
    · exact (hpublic rfl).elim
    · exact (hprivate rfl).elim
    · rfl

/-- The current receiver is not evaluated. -/
theorem isOwn_iff {receiver : Option Expr} :
    Eval.isOwn receiver = true ↔ Expr.explicitReceiver? receiver = none := by
  cases receiver with
  | none => simp [Eval.isOwn, Expr.explicitReceiver?]
  | some e => cases e <;> simp [Eval.isOwn, Expr.explicitReceiver?]

theorem isOwn_of_ne {e : Expr} (h : e ≠ .self) : Eval.isOwn (some e) = false := by
  cases e <;> first | rfl | exact absurd rfl h

/-- A call is a directive on both sides or a message on both. -/
theorem lower_call {receiver : Option Expr} {name : String} {args : List Expr}
    (h : Expr.lower here t (.call receiver name args) = .ok (code, t')) :
    (∃ op act, (Eval.isOwn receiver && args.isEmpty) = true ∧ Expr.reserved? name = some op ∧
      Eval.directive? name = some act ∧ code = here.emit [op, .pushNil] ∧ t' = t) ∨
    ((if Eval.isOwn receiver && args.isEmpty then Eval.directive? name else none) = none ∧
      ∃ target explicit t₁ inner, Expr.lowerReceiver here t receiver = .ok (target, explicit, t₁) ∧
      Expr.lowerAll here t₁ args = .ok (inner, t') ∧
      code = target ++ inner ++ here.emit [.send name args.length.toUInt64 explicit false]) := by
  unfold Expr.lower at h
  split at h
  · rename_i op hreceiver hop
    cases h
    obtain ⟨act, hact⟩ := Option.isSome_iff_exists.mp
      ((isSome_directive? name).trans (by rw [hop]; rfl))
    refine .inl ⟨op, act, ?_, hop, hact, rfl, rfl⟩
    rw [isOwn_iff.mpr hreceiver]
    rfl
  · rename_i hplain
    obtain ⟨⟨target, explicit, t₁⟩, h₁, h⟩ := bind_eq_ok h
    obtain ⟨⟨inner, t₂⟩, h₂, h⟩ := bind_eq_ok h
    cases h
    refine .inr ⟨?_, target, explicit, t₁, inner, h₁, h₂, rfl⟩
    split
    · rename_i hcond
      obtain ⟨hown, hempty⟩ := Bool.and_eq_true_iff.mp hcond
      refine Option.not_isSome_iff_eq_none.mp fun hsome => ?_
      obtain ⟨op, hop⟩ := Option.isSome_iff_exists.mp ((isSome_directive? name).symm.trans hsome)
      exact hplain op (isOwn_iff.mp hown) (List.isEmpty_iff.mp hempty) hop
    · rfl

/-! ### What evaluations result in -/

theorem yields_evalAll (c : Scene) (d : Nat) (names : Names) (es : List Expr) :
    Yields (c.evalAll d names es) fun values => values.length = es.length := by
  induction es generalizing names with
  | nil =>
    unfold Scene.evalAll
    simp only [Eval.evalAll]
    exact yields_pure rfl
  | cons e rest ih =>
    unfold Scene.evalAll
    simp only [Eval.evalAll]
    refine (yields_true (c.eval d names e)).bind fun v _ => (ih _).bind fun values hvalues => ?_
    exact yields_pure (by rw [List.length_cons, List.length_cons, hvalues])

/-- There is a receiver when lowering says so. -/
theorem yields_evalReceiver (c : Scene) (d : Nat) (names : Names) {receiver : Option Expr}
    {explicit : Bool} (h : Expr.lowerReceiver here t receiver = .ok (code, explicit, t')) :
    Yields (c.evalReceiver d names receiver) fun target => target.isSome = explicit := by
  cases receiver with
  | none =>
    cases h
    unfold Scene.evalReceiver
    simp only [Eval.evalReceiver]
    exact yields_pure rfl
  | some e =>
    unfold Scene.evalReceiver
    rcases Expr.lowerReceiver_some_eq_ok h with ⟨rfl, -, rfl, -⟩ | ⟨hself, rfl, -⟩
    · simp only [Eval.evalReceiver, Eval.isOwn]
      exact yields_pure rfl
    · simp only [Eval.evalReceiver, isOwn_of_ne hself]
      exact (yields_true (c.eval d names e)).bind fun v _ => yields_pure rfl

/-- The receiver and the arguments of a call, and then the call. -/
theorem simulates_operands (ha : Agreed T cx c d below) {receiver : Option Expr} {args : List Expr}
    {explicit : Bool} {target inner tail : List Instruction}
    (h : Expr.lowerReceiver here t receiver = .ok (target, explicit, t'))
    (hr : Simulates T cx c here below below (c.evalReceiver d names receiver) target Option.toList)
    (hrn : WellNested target)
    (hall : ∀ v : Option Value, Simulates T cx c here (v.toList ++ below) (v.toList ++ below)
      (c.evalAll d names₁ args) inner List.reverse)
    (halln : WellNested inner) {k : Option Value → List Value → Nat → Compute Value}
    (hk : ∀ v values, Steady (k v values))
    (htail : ∀ (v : Option Value) (values : List Value), v.isSome = explicit →
      values.length = args.length →
      Simulates T cx c here below (values.reverse ++ (v.toList ++ below)) (k v values) tail
        fun v => [v]) :
    Simulates T cx c here below below
      (fun n => do k (← c.evalReceiver d names receiver n) (← c.evalAll d names₁ args n) n)
      (target ++ inner ++ tail) fun v => [v] := by
  rw [List.append_assoc]
  refine hr.bindOf ha.unlimited (steady_evalReceiver c d names receiver)
    (yields_evalReceiver c d names h) (fun v => (steady_evalAll c d names₁ args).bind fun _ => hk v _)
    hrn fun v hv => ?_
  refine (hall v).frame.bindOf ha.unlimited (steady_evalAll c d names₁ args)
    (yields_evalAll c d names₁ args) (hk v) halln fun values hvalues => ?_
  rw [List.append_assoc]
  exact htail v values hv hvalues

theorem steady_yield (c : Scene) (d : Nat) (args : List Value) :
    Steady fun n => (match c.context.block with
      | some block => Eval.invoke n d (block.invocation args)
      | none => Eval.raise .noBlock : Compute Value) := by
  cases c.context.block with
  | some block => exact steady_invoke d _
  | none => exact steady_const _

/-! ### The induction -/

theorem toNat_length {α : Type} {l : List α} (h : l.length < 2 ^ 63) :
    l.length = l.length.toUInt64.toNat :=
  (UInt64.toNat_ofNat_of_lt' (by show l.length < 2 ^ 64; omega)).symm

mutual

/-- **The code of an expression does what the evaluator makes of the expression.** -/
theorem simulates_lower {here : Place} {t t' : ScopeTree} {code : List Instruction}
    {below : List Value} {names : Names} (e : Expr) (ha : Agreed T cx c d below)
    (hf : Fits here.setting e) (h : Expr.lower here t e = .ok (code, t'))
    (hv : View t here.scope c.home names) (hT : Settled t' T) :
    Simulates T cx c here below below (c.eval d names e) code fun v => [v] := by
  obtain ⟨⟨hargs, hparams⟩, hparts⟩ := fits_iff.mp hf
  unfold Scene.eval
  cases e with
  | int | str | sym | nil =>
    cases h
    simp only [Eval.eval]
    exact simulates_push ha.unlimited fun _ _ _ => rfl
  | bool b =>
    cases h
    simp only [Eval.eval]
    exact simulates_push ha.unlimited (by cases b <;> exact fun _ _ _ => rfl)
  | self =>
    cases h
    simp only [Eval.eval]
    exact simulates_pushSelf ha.unlimited
  | var name =>
    unfold Expr.lower at h
    have hbound : t.isBound here.scope name = true ↔ (names.level? name).isSome = true :=
      (ScopeTree.isBound_iff hv.proper.toSound).trans (hv.shows.bound_iff hv.owner)
    split at h
    · rename_i hb
      cases h
      obtain ⟨k, hk⟩ := Option.isSome_iff_exists.mp (hbound.mp hb)
      simp only [Eval.eval, hk]
      exact simulates_getLocal ha hv hT hk
    · rename_i hb
      cases h
      have hk : names.level? name = none := Option.not_isSome_iff_eq_none.mp (mt hbound.mpr hb)
      simp only [Eval.eval, hk]
      have hargs : ([] : List Value).length = UInt64.toNat 0 := rfl
      exact simulates_send ha.unlimited ha.calls ha.depth ha.base hargs none name
  | assign name value =>
    unfold Expr.lower at h
    obtain ⟨⟨inner, t₁⟩, h₁, h⟩ := bind_eq_ok h
    cases h
    have hvalue : Fits here.setting value := hparts _ List.mem_cons_self
    have hdeclaring := Expr.declaring_lower (names.declare name) value h₁
    obtain ⟨hT₁, hv₁⟩ := hT.between (declaring_assign here.scope t names name) hdeclaring hv
    obtain ⟨inner, outer, rfl⟩ := hv.shows.ne_nil
    obtain ⟨k, hk⟩ :=
      Option.isSome_iff_exists.mp (Names.isSome_level?_declare inner outer name)
    simp only [Eval.eval, hk, Option.getD_some]
    exact (simulates_lower value ha hvalue h₁ hv₁ hT).bind ha.unlimited (steady_eval c d _ value)
      (fun _ => steady_const _) (hT.wellNested here hv₁ (Expr.emits_lower value hvalue.countable h₁))
      fun v => simulates_assign ha hv₁ hT₁ hk v
  | gvar name =>
    cases h
    simp only [Eval.eval]
    exact simulates_getGlobal ha.unlimited name
  | gassign name value =>
    unfold Expr.lower at h
    obtain ⟨⟨inner, t₁⟩, h₁, h⟩ := bind_eq_ok h
    cases h
    have hvalue : Fits here.setting value := hparts _ List.mem_cons_self
    simp only [Eval.eval]
    exact (simulates_lower value ha hvalue h₁ hv hT).bind ha.unlimited (steady_eval c d names value)
      (fun _ => steady_const _) (hT.wellNested here hv (Expr.emits_lower value hvalue.countable h₁))
      fun v => simulates_gassign ha name v
  | call receiver name args =>
    rcases lower_call h with ⟨op, act, hown, hop, hact, rfl, rfl⟩ |
      ⟨hmessage, target, explicit, t₁, inner, h₁, h₂, rfl⟩
    · simp only [Eval.eval, hown, if_true, hact]
      exact simulates_directive ha hop hact
    · obtain ⟨hr, hall⟩ := Expr.forall_parts_call.mp hparts
      obtain ⟨hT₁, hv₁⟩ := hT.between (Expr.declaring_lowerReceiver names receiver h₁)
        (Expr.declaring_lowerAll _ args h₂) hv
      simp only [Eval.eval, hmessage]
      refine simulates_operands ha h₁ (simulates_lowerReceiver receiver ha hr h₁ hv hT₁)
        (hT₁.wellNested here hv (Expr.emits_lowerReceiver receiver (fun x hx => (hr x hx).countable) h₁))
        (fun v => simulates_lowerAll args (ha.above v.toList) hall h₂ hv₁ hT)
        (hT.wellNested here hv₁ (Expr.emits_lowerAll args (fun x hx => (hall x hx).countable) h₂))
        (fun _ _ => steady_evalSend c d _ _ _ _) fun v values hv hvalues => ?_
      subst hv
      exact simulates_send ha.unlimited ha.calls ha.depth ha.base
        (hvalues.trans (toNat_length hargs)) v name
  | iter receiver name args params body =>
    unfold Expr.lower at h
    obtain ⟨⟨target, explicit, t₁⟩, h₁, h⟩ := bind_eq_ok h
    obtain ⟨⟨inner, t₂⟩, h₂, h⟩ := bind_eq_ok h
    obtain ⟨⟨content, t₃⟩, h₃, h⟩ := bind_eq_ok h
    cases h
    obtain ⟨hr, hall, hbody⟩ := Expr.forall_parts_iter.mp hparts
    have hblock := Expr.declaring_lowerBody
      (params :: (names.declareAll (Expr.assignedOption receiver)).declareAll (Expr.assignedAll args))
      body h₃
    obtain ⟨hT₂, hv₂⟩ := hT.between
      ((Expr.declaring_lowerReceiver names receiver h₁).append (Expr.declaring_lowerAll _ args h₂))
      (.body (by decide) rfl hblock fun r hlt hv => hv.block hlt rfl) hv
    obtain ⟨hT₁, hv₁⟩ := hT₂.between (Expr.declaring_lowerReceiver names receiver h₁)
      (Expr.declaring_lowerAll _ args h₂) hv
    obtain ⟨hlowered, hopens, hnested⟩ := hT.block rfl hv₂ hparams (by exact hbody) h₃
    simp only [Eval.eval, List.append_assoc]
    rw [← List.append_assoc target]
    refine simulates_operands ha h₁ (simulates_lowerReceiver receiver ha hr h₁ hv hT₁)
      (hT₁.wellNested here hv (Expr.emits_lowerReceiver receiver (fun x hx => (hr x hx).countable) h₁))
      (fun v => simulates_lowerAll args (ha.above v.toList) hall h₂ hv₁ hT₂)
      (hT₂.wellNested here hv₁ (Expr.emits_lowerAll args (fun x hx => (hall x hx).countable) h₂))
      (fun _ _ => steady_evalSend c d _ _ _ _) fun v values hv hvalues => ?_
    subst hv
    rw [← List.append_assoc (Expr.bindParams ..).1]
    exact simulates_iter ha.unlimited ha.calls ha.depth ha.base
      (hvalues.trans (toNat_length hargs)) hnested hlowered hopens v name
  | yield args =>
    unfold Expr.lower at h
    obtain ⟨⟨inner, t₁⟩, h₁, h⟩ := bind_eq_ok h
    cases h
    have hall : ∀ x ∈ args, Fits here.setting x := fun x hx => hparts _ (List.mem_map_of_mem hx)
    simp only [Eval.eval]
    exact (simulates_lowerAll args ha hall h₁ hv hT).bindOf ha.unlimited
      (steady_evalAll c d names args) (yields_evalAll c d names args)
      (fun _ => steady_yield c d _)
      (hT.wellNested here hv (Expr.emits_lowerAll args (fun x hx => (hall x hx).countable) h₁))
      fun values hvalues => simulates_yield ha.unlimited ha.calls ha.depth ha.base
        (hvalues.trans (toNat_length hargs))
  | cond test yes no =>
    unfold Expr.lower at h
    obtain ⟨⟨testCode, t₁⟩, h₁, h⟩ := bind_eq_ok h
    obtain ⟨⟨yesCode, t₂⟩, h₂, h⟩ := bind_eq_ok h
    obtain ⟨⟨noCode, t₃⟩, h₃, h⟩ := bind_eq_ok h
    cases h
    obtain ⟨ht, hy, hn⟩ := Expr.forall_parts_cond.mp hparts
    have hdtest := Expr.declaring_lower names test h₁
    have hdyes := Expr.declaring_lowerOption (names.declareAll (Expr.assigned test)) yes h₂
    have hdno := Expr.declaring_lowerOption
      ((names.declareAll (Expr.assigned test)).declareAll (Expr.assignedOption yes)) no h₃
    obtain ⟨hT₂, hv₂⟩ := hT.between (hdtest.append hdyes.hoisted) hdno.hoisted hv
    obtain ⟨hT₁, hv₁⟩ := hT₂.between hdtest hdyes.hoisted hv
    have hvyes := hv₁.hoisted (hT₂.size_lt_of_push here.scope hdyes)
    have hvno := hv₂.hoisted (hT.size_lt_of_push here.scope hdno)
    simp only [Eval.eval, List.append_assoc]
    refine (simulates_lower test ha ht h₁ hv hT₁).bind ha.unlimited (steady_eval c d names test)
      (fun v => ?_) (hT₁.wellNested here hv (Expr.emits_lower test ht.countable h₁)) fun v => ?_
    · split
      · exact steady_evalOption c d _ yes
      · exact steady_evalOption c d _ no
    · have hyes : WellNested yesCode := hT₂.wellNested { here with scope := _ } hvyes.2
        (Expr.emits_lowerOption yes (fun x hx => (hy x hx).countable) h₂)
      have hno : WellNested noCode := hT.wellNested { here with scope := _ } hvno.2
        (Expr.emits_lowerOption no (fun x hx => (hn x hx).countable) h₃)
      refine simulates_cond ha.unlimited hyes hno ha.base (fun _ => ?_) fun _ => ?_
      · exact (simulates_lowerOption yes ha (by exact hy) h₂ hvyes.2 hT₂).place here rfl rfl
      · exact (simulates_lowerOption no ha (by exact hn) h₃ hvno.2 hT).place here rfl rfl
  | loop test body =>
    unfold Expr.lower at h
    obtain ⟨⟨testCode, t₁⟩, h₁, h⟩ := bind_eq_ok h
    obtain ⟨⟨bodyCode, t₂⟩, h₂, h⟩ := bind_eq_ok h
    cases h
    obtain ⟨ht, hb⟩ := Expr.forall_parts_loop.mp hparts
    have hdtest := Expr.declaring_lower names test h₁
    have hdbody := Expr.declaring_lowerStatements (names.declareAll (Expr.assigned test)) body h₂
    have hv₀ := hv.hoisted (hT.size_lt_of_push here.scope (hdtest.append hdbody))
    obtain ⟨hT₁, hv₁⟩ := hT.between hdtest hdbody hv₀.2
    simp only [Eval.eval, List.append_assoc]
    have htest := simulates_lower test ha (by exact ht) h₁ hv₀.2 hT₁
    have hrest := simulates_lowerStatements body ha (by exact hb) h₂ hv₁ hT
    exact simulates_loop ha.base (by rfl) (by rfl) (steady_eval c d names test)
      (steady_evalStatements c d _ body) htest hrest ha.unlimited
      (hT₁.wellNested { here with scope := _, inLoop := true } hv₀.2
        (Expr.emits_lower test (Fits.countable ht) h₁))
      (hT.wellNested { here with scope := _, inLoop := true } hv₁
        (Expr.emits_lowerStatements body (fun x hx => (hb x hx).countable) h₂))
  | conj left right =>
    unfold Expr.lower at h
    obtain ⟨⟨leftCode, t₁⟩, h₁, h⟩ := bind_eq_ok h
    obtain ⟨⟨rightCode, t₂⟩, h₂, h⟩ := bind_eq_ok h
    cases h
    have hl := hparts _ List.mem_cons_self
    have hr := hparts _ (List.mem_cons_of_mem _ List.mem_cons_self)
    obtain ⟨hT₁, hvright, hleft, hnested⟩ := hT.sides hv hl hr h₁ h₂
    have hright := simulates_lower right ha (by exact hr) h₂ hvright hT
    simp only [Eval.eval, List.append_assoc]
    refine (simulates_lower left ha hl h₁ hv hT₁).bind ha.unlimited (steady_eval c d names left)
      (fun v => ?_) hleft fun v => ?_
    · split
      · exact steady_eval c d _ right
      · exact steady_const _
    · refine .act ha.unlimited (performs_dup rfl) (fun index _ _ hs => hs.dup ha.base index) ?_
      exact simulates_cond ha.unlimited hnested ⟨placement T, .top, .top, .nil _⟩
        (Nat.le_succ_of_le ha.base) (fun _ => (hright.place here rfl rfl).dropped ha)
        fun _ => simulates_value v
  | disj left right =>
    unfold Expr.lower at h
    obtain ⟨⟨leftCode, t₁⟩, h₁, h⟩ := bind_eq_ok h
    obtain ⟨⟨rightCode, t₂⟩, h₂, h⟩ := bind_eq_ok h
    cases h
    have hl := hparts _ List.mem_cons_self
    have hr := hparts _ (List.mem_cons_of_mem _ List.mem_cons_self)
    obtain ⟨hT₁, hvright, hleft, hnested⟩ := hT.sides hv hl hr h₁ h₂
    have hright := simulates_lower right ha (by exact hr) h₂ hvright hT
    simp only [Eval.eval, List.append_assoc]
    refine (simulates_lower left ha hl h₁ hv hT₁).bind ha.unlimited (steady_eval c d names left)
      (fun v => ?_) hleft fun v => ?_
    · split
      · exact steady_const _
      · exact steady_eval c d _ right
    · refine .act ha.unlimited (performs_dup rfl) (fun index _ _ hs => hs.dup ha.base index) ?_
      exact simulates_cond ha.unlimited ⟨placement T, .top, .top, .nil _⟩ hnested
        (Nat.le_succ_of_le ha.base) (fun _ => simulates_value v)
        fun _ => (hright.place here rfl rfl).dropped ha
  | neg operand =>
    unfold Expr.lower at h
    obtain ⟨⟨inner, t₁⟩, h₁, h⟩ := bind_eq_ok h
    cases h
    have ho : Fits here.setting operand := hparts _ List.mem_cons_self
    simp only [Eval.eval]
    refine (simulates_lower operand ha ho h₁ hv hT).bind ha.unlimited
      (steady_eval c d names operand) (fun _ => steady_const _)
      (hT.wellNested here hv (Expr.emits_lower operand ho.countable h₁)) fun v => ?_
    exact simulates_not ha v
  | seq items =>
    unfold Expr.lower at h
    have hi : ∀ x ∈ items, Fits here.setting x := fun x hx => hparts _ (List.mem_map_of_mem hx)
    simp only [Eval.eval]
    exact simulates_lowerBody items ha hi h hv hT
  | ret value =>
    unfold Expr.lower at h
    split at h
    · cases h
    · rename_i hb
      obtain ⟨⟨inner, t₁⟩, h₁, h⟩ := bind_eq_ok h
      cases h
      have ho : ∀ x ∈ value, Fits here.setting x :=
        fun x hx => hparts _ (List.mem_map_of_mem (Option.mem_toList.mpr hx))
      simp only [Eval.eval]
      exact (simulates_lowerOption value ha ho h₁ hv hT).bind ha.unlimited
        (steady_evalOption c d names value) (fun _ => steady_const _)
        (hT.wellNested here hv (Expr.emits_lowerOption value (fun x hx => (ho x hx).countable) h₁))
        fun v => simulates_ret ha hb v
  | brk =>
    unfold Expr.lower at h
    split at h
    · rename_i hl
      cases h
      simp only [Eval.eval]
      exact simulates_breakOut ha hl
    · cases h
  | next value =>
    have ho : ∀ x ∈ value, Fits here.setting x :=
      fun x hx => hparts _ (List.mem_map_of_mem (Option.mem_toList.mpr hx))
    unfold Expr.lower at h
    simp only [Eval.eval]
    split at h
    · rename_i hl
      obtain ⟨⟨inner, t₁⟩, h₁, h⟩ := bind_eq_ok h
      cases h
      exact (simulates_lowerDropped value ha ho h₁ hv hT).bind ha.unlimited
        (steady_evalOption c d names value) (fun _ => steady_const _)
        (hT.wellNested here hv (Expr.emits_lowerDropped value (fun x hx => (ho x hx).countable) h₁))
        fun v => simulates_again ha hl v
    · rename_i hl
      split at h
      · rename_i hb
        obtain ⟨⟨inner, t₁⟩, h₁, h⟩ := bind_eq_ok h
        cases h
        exact (simulates_lowerOption value ha ho h₁ hv hT).bind ha.unlimited
          (steady_evalOption c d names value) (fun _ => steady_const _)
          (hT.wellNested here hv
            (Expr.emits_lowerOption value (fun x hx => (ho x hx).countable) h₁))
          fun v => simulates_finish ha (Bool.not_eq_true _ ▸ hl) hb v
      · cases h
  | method name params body =>
    unfold Expr.lower at h
    obtain ⟨⟨inner, t₁⟩, h₁, h⟩ := bind_eq_ok h
    cases h
    have hb : ∀ x ∈ body, Fits { body := .method } x :=
      fun x hx => hparts _ (List.mem_map_of_mem hx)
    obtain ⟨hlowered, hopens, hnested⟩ := hT.method rfl hv hparams (by exact hb) h₁
    have hgroup : ∀ a b c d e : List Instruction, a ++ b ++ c ++ d ++ e = a ++ (b ++ c ++ d ++ e) :=
      fun _ _ _ _ _ => by simp only [List.append_assoc]
    simp only [Eval.eval]
    rw [hgroup]
    exact simulates_method ha.unlimited hnested hlowered hopens

theorem simulates_lowerOption {here : Place} {t t' : ScopeTree} {code : List Instruction}
    {below : List Value} {names : Names} (e : Option Expr) (ha : Agreed T cx c d below)
    (hf : ∀ x ∈ e, Fits here.setting x) (h : Expr.lowerOption here t e = .ok (code, t'))
    (hv : View t here.scope c.home names) (hT : Settled t' T) :
    Simulates T cx c here below below (c.evalOption d names e) code fun v => [v] := by
  unfold Scene.evalOption
  cases e with
  | none =>
    cases h
    simp only [Eval.evalOption]
    exact simulates_pushNil ha.unlimited
  | some e =>
    unfold Expr.lowerOption at h
    simp only [Eval.evalOption]
    exact simulates_lower e ha (hf e rfl) h hv hT

theorem simulates_lowerDropped {here : Place} {t t' : ScopeTree} {code : List Instruction}
    {below : List Value} {names : Names} (e : Option Expr) (ha : Agreed T cx c d below)
    (hf : ∀ x ∈ e, Fits here.setting x) (h : Expr.lowerDropped here t e = .ok (code, t'))
    (hv : View t here.scope c.home names) (hT : Settled t' T) :
    Simulates T cx c here below below (c.evalOption d names e) code fun _ => [] := by
  unfold Scene.evalOption
  cases e with
  | none =>
    cases h
    simp only [Eval.evalOption]
    exact simulates_pure (fun _ => []) Value.nil
  | some e =>
    unfold Expr.lowerDropped at h
    obtain ⟨⟨inner, t₁⟩, h₁, h⟩ := bind_eq_ok h
    cases h
    have he := hf e rfl
    simp only [Eval.evalOption]
    exact (simulates_lower e ha he h₁ hv hT).discarded ha (steady_eval c d names e)
      (hT.wellNested here hv (Expr.emits_lower e he.countable h₁)) here.scope

theorem simulates_lowerReceiver {here : Place} {t t' : ScopeTree} {code : List Instruction}
    {explicit : Bool} {below : List Value} {names : Names} (e : Option Expr)
    (ha : Agreed T cx c d below) (hf : ∀ x ∈ e, Fits here.setting x)
    (h : Expr.lowerReceiver here t e = .ok (code, explicit, t'))
    (hv : View t here.scope c.home names) (hT : Settled t' T) :
    Simulates T cx c here below below (c.evalReceiver d names e) code Option.toList := by
  unfold Scene.evalReceiver
  cases e with
  | none =>
    cases h
    simp only [Eval.evalReceiver]
    exact simulates_pure Option.toList none
  | some e =>
    rcases Expr.lowerReceiver_some_eq_ok h with ⟨rfl, rfl, -, rfl⟩ | ⟨hself, -, h₁⟩
    · simp only [Eval.evalReceiver, Eval.isOwn]
      exact simulates_pure Option.toList none
    · have he := hf e rfl
      simp only [Eval.evalReceiver, isOwn_of_ne hself]
      exact (simulates_lower e ha he h₁ hv hT).map ha.unlimited (steady_eval c d names e)
        (hT.wellNested here hv (Expr.emits_lower e he.countable h₁)) fun _ => rfl

theorem simulates_lowerAll {here : Place} {t t' : ScopeTree} {code : List Instruction}
    {below : List Value} {names : Names} (es : List Expr) (ha : Agreed T cx c d below)
    (hf : ∀ x ∈ es, Fits here.setting x) (h : Expr.lowerAll here t es = .ok (code, t'))
    (hv : View t here.scope c.home names) (hT : Settled t' T) :
    Simulates T cx c here below below (c.evalAll d names es) code List.reverse := by
  unfold Scene.evalAll
  cases es with
  | nil =>
    cases h
    simp only [Eval.evalAll]
    exact simulates_pure List.reverse []
  | cons e rest =>
    unfold Expr.lowerAll at h
    obtain ⟨⟨first, t₁⟩, h₁, h⟩ := bind_eq_ok h
    obtain ⟨⟨more, t₂⟩, h₂, h⟩ := bind_eq_ok h
    cases h
    obtain ⟨he, hrest⟩ := List.forall_mem_cons.mp hf
    obtain ⟨hT₁, hv₁⟩ := hT.between (Expr.declaring_lower names e h₁)
      (Expr.declaring_lowerAll _ rest h₂) hv
    simp only [Eval.evalAll]
    refine (simulates_lower e ha he h₁ hv hT₁).bind ha.unlimited (steady_eval c d names e)
      (fun v => (steady_evalAll c d _ rest).bind fun _ => steady_const _)
      (hT₁.wellNested here hv (Expr.emits_lower e he.countable h₁)) fun v => ?_
    exact (simulates_lowerAll rest (ha.above [v]) hrest h₂ hv₁ hT).frame.map ha.unlimited
      (steady_evalAll c d _ rest)
      (hT.wellNested here hv₁
        (Expr.emits_lowerAll rest (fun x hx => (hrest x hx).countable) h₂))
      fun values => List.reverse_cons

theorem simulates_lowerStatements {here : Place} {t t' : ScopeTree} {code : List Instruction}
    {below : List Value} {names : Names} (es : List Expr) (ha : Agreed T cx c d below)
    (hf : ∀ x ∈ es, Fits here.setting x) (h : Expr.lowerStatements here t es = .ok (code, t'))
    (hv : View t here.scope c.home names) (hT : Settled t' T) :
    Simulates T cx c here below below (c.evalStatements d names es) code fun _ => [] := by
  unfold Scene.evalStatements
  cases es with
  | nil =>
    cases h
    simp only [Eval.evalStatements]
    exact simulates_pure (fun _ => []) ()
  | cons e rest =>
    unfold Expr.lowerStatements at h
    obtain ⟨⟨first, t₁⟩, h₁, h⟩ := bind_eq_ok h
    obtain ⟨⟨more, t₂⟩, h₂, h⟩ := bind_eq_ok h
    cases h
    obtain ⟨he, hrest⟩ := List.forall_mem_cons.mp hf
    obtain ⟨hT₁, hv₁⟩ := hT.between (Expr.declaring_lower names e h₁)
      (Expr.declaring_lowerStatements _ rest h₂) hv
    simp only [Eval.evalStatements, List.append_assoc]
    exact (simulates_lower e ha he h₁ hv hT₁).bind ha.unlimited (steady_eval c d names e)
      (fun _ => steady_evalStatements c d _ rest)
      (hT₁.wellNested here hv (Expr.emits_lower e he.countable h₁)) fun v =>
        (simulates_lowerStatements rest ha hrest h₂ hv₁ hT).dropped ha

theorem simulates_lowerBody {here : Place} {t t' : ScopeTree} {code : List Instruction}
    {below : List Value} {names : Names} (es : List Expr) (ha : Agreed T cx c d below)
    (hf : ∀ x ∈ es, Fits here.setting x) (h : Expr.lowerBody here t es = .ok (code, t'))
    (hv : View t here.scope c.home names) (hT : Settled t' T) :
    Simulates T cx c here below below (c.evalBody d names es) code fun v => [v] := by
  unfold Scene.evalBody
  match es with
  | [] =>
    cases h
    simp only [Eval.evalBody]
    exact simulates_pushNil ha.unlimited
  | [e] =>
    unfold Expr.lowerBody at h
    simp only [Eval.evalBody]
    exact simulates_lower e ha (hf e (List.mem_cons_self ..)) h hv hT
  | e :: e' :: rest =>
    unfold Expr.lowerBody at h
    obtain ⟨⟨first, t₁⟩, h₁, h⟩ := bind_eq_ok h
    obtain ⟨⟨more, t₂⟩, h₂, h⟩ := bind_eq_ok h
    cases h
    obtain ⟨he, hrest⟩ := List.forall_mem_cons.mp hf
    obtain ⟨hT₁, hv₁⟩ := hT.between (Expr.declaring_lower names e h₁)
      (Expr.declaring_lowerBody _ (e' :: rest) h₂) hv
    simp only [Eval.evalBody, List.append_assoc]
    exact (simulates_lower e ha he h₁ hv hT₁).bind ha.unlimited (steady_eval c d names e)
      (fun _ => steady_evalBody c d _ (e' :: rest))
      (hT₁.wellNested here hv (Expr.emits_lower e he.countable h₁)) fun v =>
        (simulates_lowerBody (e' :: rest) ha hrest h₂ hv₁ hT).dropped ha

end

/-- **Calls agree, however deep they may be nested.** -/
theorem callsAgree_of_proper (hcx : cx.Unlimited) (hT : T.Proper) (hscopes : cx.scopes = T)
    (d : Nat) : CallsAgree T cx d := by
  refine callsAgree hcx hT hscopes (fun d hcalls => ?_) d
  intro c here t t' text code names below hf h hv hT hd hbase
  exact simulates_lowerBody text ⟨hcx, hscopes, hcalls, hd, hbase⟩ hf h hv hT

/-! ## Programs -/

/-- The top level of a program. -/
def Scene.top (room : Option Nat) (env : Env) : Scene where
  context := Eval.topContext
  frame := topFrame ⟨0⟩
  outer := []
  home := .root
  entry := entryState room env
  self_eq := rfl
  locals_eq := rfl

theorem has_top {scope : Scope} (hget : T.get? .root = some scope) (hhoist : scope.hoist = false)
    (hblock : scope.block = false) (room : Option Nat) :
    Has T (Scene.top room (freshEnv scope .root none)) [] (.initial room)
      (entryState room (freshEnv scope .root none)) := by
  refine ⟨⟨rfl, rfl, rfl, fun _ => .none, (running_top hget hhoist hblock).valid.envs, rfl, ?_, ?_⟩,
    rfl, ⟨_, rfl, rfl⟩, .none, .refl _, rfl⟩
  · intro i own env hown henv
    cases i with
    | zero =>
      cases hown
      cases henv
      refine ⟨rfl, fun name v hv => ?_⟩
      have hv : (scope.vars.map fun _ => Value.nil).get? name = some v := hv
      rw [Table.get?_map] at hv
      obtain ⟨_, -, rfl⟩ := Option.map_eq_some_iff.mp hv
      rfl
    | succ i => simp [World.initial] at hown
  · intro id closure hid
    cases hid

/-- The result of a run is the one that the outcome of the evaluation asks for. The value of a
program that comes to its end is there when it is used. -/
def Reported (used : Bool) (result : Except Stop Exit) : Eval.Outcome → Prop
  | .finished v => result = .ok (.finished (if used then some v else none))
  | .returned v => result = .ok (.finished (some v))
  | .halted => result = .ok .halted
  | .raised e => ∃ trace, result = .error (.fault (.raised ⟨e, trace⟩))
  | .outputFull => result = .error (.fault .outputFull)
  | .strayed => False

variable {e : Expr} {used : Bool} {P : Program}

/-- The code of a program does what the evaluator makes of the program. -/
theorem simulates_toProgram (hf : Fits {} e) (h : e.toProgram used = .ok P)
    (hsmall : P.scopes.size ≤ 2 ^ 32) (hcx : cx.Unlimited) (hscopes : cx.scopes = P.scopes)
    (room : Option Nat) (env : Env) :
    Simulates P.scopes cx (Scene.top room env) {} [] []
      ((Scene.top room env).eval cx.limits.callDepth [[]] e) P.code
      fun v => if used then [v] else [] := by
  unfold Expr.toProgram at h
  obtain ⟨⟨code, scopes⟩, hlower, h⟩ := bind_eq_ok h
  cases h
  have hf : Fits (Place.setting {}) e := hf
  have hemits := Expr.emits_lower e hf.countable hlower
  obtain ⟨⟨m, hm⟩, -⟩ := hemits ScopeTree.proper_initial (by decide)
  have hproper := hm.proper ScopeTree.proper_initial
  have hT : Settled scopes scopes := ⟨⟨hproper, hsmall, .refl _⟩, id⟩
  have ha : Agreed scopes cx (Scene.top room env) cx.limits.callDepth [] :=
    ⟨hcx, hscopes, callsAgree_of_proper hcx hproper hscopes _, (Nat.zero_add _).symm,
      Nat.le_refl _⟩
  have hsim := simulates_lower e ha hf hlower view_initial hT
  cases used with
  | true =>
    show Simulates scopes cx _ {} [] [] _ (code ++ []) fun v => [v]
    rw [List.append_nil]
    exact hsim
  | false =>
    exact hsim.discarded ha (steady_eval _ _ _ e) (hT.wellNested {} view_initial hemits) .root

/-- The report of a run. -/
def report : EStateM.Result Stop State Exit → Report
  | .ok exit s => ⟨.ok exit, s.stack.reverse, s.output⟩
  | .error e s => ⟨.error e, s.stack.reverse, s.output⟩

theorem reportWithin_eq (fuel : Nat) (limits : Limits) (room : Option Nat) (P : Program) :
    reportWithin fuel limits room P = report (runWithin fuel limits P { output := { room } }) := by
  unfold reportWithin report
  rfl

theorem result_report_eq_iff {r : EStateM.Result Stop State Exit} :
    (report r).result = .error .outOfFuel ↔ RanOut r := by
  cases r with
  | ok exit s => exact iff_of_false (by nofun) (not_ranOut_ok exit s)
  | error e s =>
    rw [ranOut_error_iff]
    exact ⟨fun h => Except.error.inj h, fun h => congrArg Except.error h⟩

theorem steady_runWithin (limits : Limits) (P : Program) :
    Steady fun n => runWithin n limits P := by
  intro n
  refine (improves_refl _).bind fun env => (improves_refl _).bind fun _ => ?_
  exact (improves_exec _ n P.segment).bind fun _ => improves_refl _

theorem not_ranOut_finish (e : Ended) (s : State) : ¬ RanOut (finish e s) := by
  obtain ⟨_ | _ | _ | ⟨_ | _⟩ | _, stop⟩ := e
  case none | some.ret | some.halt => exact not_ranOut_ok _ _
  all_goals exact mt ranOut_error_iff.mp (by nofun)

/-- A run is what its code comes to. -/
theorem lim_runWithin {limits : Limits} {scope : Scope} (hget : P.scopes.get? .root = some scope)
    (room : Option Nat) : lim (fun n => runWithin n limits P) { output := { room } } =
      ((den ⟨limits, P.scopes⟩ P.segment).bind fun e s => some (finish e s))
        (entryState room (freshEnv scope .root none)) := by
  have hfinish : (fun e : Ended => lim fun _ => finish e) = fun e s => some (finish e s) :=
    funext fun e => funext fun s => lim_const rfl (not_ranOut_finish e s)
  unfold den
  rw [← hfinish, ← lim_bind (steady_exec _ P.segment) fun _ => steady_const _]
  refine lim_eq_of_eq fun n => ?_
  unfold runWithin
  rw [bind_of_eq_ok (newEnv_eq rfl hget)]
  rfl

/-- The results of an evaluation and of a run that say the same. -/
def Reports (used : Bool) (r : EStateM.Result Eval.Interrupt World Value)
    (r' : EStateM.Result Stop State Exit) : Prop :=
  ∃ o out, Eval.outcome? r = some (o, out) ∧ Reported used (report r').result o ∧
    (report r').output = out

/-- A run and the evaluation come to the same, or go on for ever both. -/
theorem rel_lim_runWithin (hf : Fits {} e) (h : e.toProgram used = .ok P)
    (hsmall : P.scopes.size ≤ 2 ^ 32) {limits : Limits} (hsteps : limits.steps = none)
    (hstack : limits.stack = none) (room : Option Nat) :
    Option.Rel (Reports used)
      (lim (fun n => Eval.eval n (Eval.invoke n limits.callDepth) Eval.topContext [[]] e)
        (.initial room))
      (lim (fun n => runWithin n limits P) { output := { room } }) := by
  obtain ⟨scope, hget, hhoist, hblock⟩ :=
    Op.opensMethod_iff.mp (disciplined_of_toProgram (Fits.countable hf) h hsmall).top
  have hcx : Setup.Unlimited ⟨limits, P.scopes⟩ := ⟨hsteps, hstack⟩
  have hrel := simulates_toProgram hf h hsmall hcx rfl room (freshEnv scope .root none) 0 _ _
    (has_top hget hhoist hblock room)
  rw [lim_runWithin hget]
  unfold Partial.bind
  change Option.Rel _ (lim (fun n => Eval.eval n (Eval.invoke n limits.callDepth) Eval.topContext
    [[]] e) _) (den ⟨limits, P.scopes⟩ P.segment _) at hrel
  revert hrel
  generalize lim (fun n => Eval.eval n (Eval.invoke n limits.callDepth) Eval.topContext [[]] e)
    (World.initial room) = x
  generalize den ⟨limits, P.scopes⟩ P.segment _ = y
  rintro (hrel | _)
  · cases hrel with
    | @ok v w s stop h =>
      refine .some ⟨.finished v, _, rfl, ?_, h.like.output⟩
      show Except.ok (Exit.finished s.stack.head?) = _
      rw [h.stack_eq]
      cases used <;> rfl
    | @signal signal signal' w s stop hc h =>
      obtain ⟨more, h⟩ := h
      cases hc with
      | breakOut hin | again hin => cases hin
      | finish _ hb => cases hb
      | ret => exact .some ⟨.returned _, _, rfl, rfl, h.like.output⟩
      | halt => exact .some ⟨.halted, _, rfl, rfl, h.like.output⟩
    | raised h => exact .some ⟨.raised _, _, rfl, ⟨_, rfl⟩, h⟩
    | outputFull h => exact .some ⟨.outputFull, _, rfl, rfl, h⟩
  · exact .none

/-- **A program runs as it is evaluated.** A run of its code, as lowering writes it, ends exactly
when the evaluation of the text does, and then both have written the same and come to the same: the
same value when it is used or returned, a halt, the same exception, or the end of the room for
output. -/
theorem lowered_run_agrees_with_evaluation (hf : Fits {} e) (h : e.toProgram used = .ok P)
    (hsmall : P.scopes.size ≤ 2 ^ 32) (limits : Limits) (hsteps : limits.steps = none)
    (hstack : limits.stack = none) (room : Option Nat) :
    ((∃ n, (reportWithin n limits room P).result ≠ .error .outOfFuel) ↔
      ∃ n, e.evaluateWithin n limits.callDepth room ≠ none) ∧
    ∀ n k o out, (reportWithin n limits room P).result ≠ .error .outOfFuel →
      e.evaluateWithin k limits.callDepth room = some (o, out) →
      Reported used (reportWithin n limits room P).result o ∧
        (reportWithin n limits room P).output = out := by
  have hrel := rel_lim_runWithin hf h hsmall hsteps hstack room
  have hrun := steady_runWithin limits P
  have heval : Steady fun n => Eval.eval n (Eval.invoke n limits.callDepth) Eval.topContext [[]] e :=
    fun n => Eval.improves_eval (fun inv => steady_invoke _ inv n) (Nat.le_succ n) _ e
  obtain ⟨hleft, hright⟩ := optionRel_iff.mp hrel
  have hended : ∀ n, (reportWithin n limits room P).result ≠ .error .outOfFuel ↔
      ¬ RanOut (runWithin n limits P { output := { room } }) := fun n => by
    rw [reportWithin_eq, Ne, result_report_eq_iff]
  have hevaluated : ∀ n, e.evaluateWithin n limits.callDepth room ≠ none ↔ ¬ RanOut
      (Eval.eval n (Eval.invoke n limits.callDepth) Eval.topContext [[]] e (.initial room)) :=
    fun n => not_congr Eval.outcome?_eq_none_iff
  refine ⟨⟨?_, ?_⟩, ?_⟩
  · rintro ⟨n, hn⟩
    obtain ⟨r, hr, -⟩ := hright _ (lim_eq_some hrun rfl ((hended n).mp hn))
    obtain ⟨k, rfl, hk⟩ := (lim_eq_some_iff heval).mp hr
    exact ⟨k, (hevaluated k).mpr hk⟩
  · rintro ⟨k, hk⟩
    obtain ⟨r, hr, -⟩ := hleft _ (lim_eq_some heval rfl ((hevaluated k).mp hk))
    obtain ⟨n, rfl, hn⟩ := (lim_eq_some_iff hrun).mp hr
    exact ⟨n, (hended n).mpr hn⟩
  · intro n k o out hn hk
    have hk' : ¬ RanOut _ := (hevaluated k).mp (by rw [hk]; nofun)
    obtain ⟨r, hr, o', out', ho, hreported, hout⟩ := hleft _ (lim_eq_some heval rfl hk')
    rw [lim_eq_some hrun rfl ((hended n).mp hn)] at hr
    cases hr
    have hsame : some (o', out') = some (o, out) := ho.symm.trans hk
    cases hsame
    rw [reportWithin_eq]
    exact ⟨hreported, hout⟩

/-- The program that `sumDown` is lowered to. -/
def sumDownLowered : Program := match Expr.sumDown.toProgram true with
  | .ok P => P
  | .error _ => { code := [] }

theorem sumDown_agrees_with_evaluation :
    Expr.sumDown.toProgram true = .ok sumDownLowered ∧
    Expr.sumDown.evaluateWithin 10 3 none = some (.finished (.int 6), {}) ∧
    ∃ n, (reportWithin n { callDepth := 3 } none sumDownLowered).result =
      .ok (.finished (some (.int 6))) := by
  have hlowered : Expr.sumDown.toProgram true = .ok sumDownLowered := rfl
  have hevaluated : Expr.sumDown.evaluateWithin 10 3 none = some (.finished (.int 6), {}) := by
    decide +kernel
  obtain ⟨hends, hagree⟩ := lowered_run_agrees_with_evaluation (fits_of_sizeOf_lt (by decide))
    hlowered (by decide +kernel) { callDepth := 3 } rfl rfl none
  obtain ⟨n, hn⟩ := hends.mpr ⟨10, by rw [hevaluated]; nofun⟩
  exact ⟨hlowered, hevaluated, n, (hagree n 10 _ _ hn hevaluated).1⟩

end StackCode.Machine
