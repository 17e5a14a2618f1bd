import StackCode.Proofs.Visible

/-!
# Bindings while code is written

The scopes grow while code is written: what stands later in the text opens scopes and declares
variables in scopes that earlier instructions already stand in. An access that has been written
nevertheless means the same variable ever after (`accesses_keep_bindings`).

To say so, `Expr.journal` writes the code of an expression once more, one step after another: each
entry of the journal holds an instruction together with the scopes as they are at that moment. Its
instructions are those of `Expr.lower` (`Expr.journaled_lower`).

Two kinds of declarations are told apart. An assignment declares a name only when a search would
find none, so that no search changes its way. A parameter may hide a variable further out, but its
body is new: what has been written in it so far are assignments to other parameters, which do not
leave it.
-/

namespace StackCode

open ScopeTree (Binds Bound Hoists)

/-! ## Journals -/

/-- An instruction, and the scopes as they were when it was written. -/
structure Entry where
  instruction : Instruction
  scopes : ScopeTree

/-- What has been written, and the scopes as they are. -/
structure Journal where
  entries : List Entry := []
  scopes : ScopeTree := .initial

/-- A step of writing, which may find a misplaced form. -/
abbrev Journaling := StateT Journal (Except LowerError)

namespace Place

/-- The operations, as entries of a journal. -/
def entries (here : Place) (ops : List Op) (t : ScopeTree) : List Entry :=
  (here.emit ops).map (⟨·, t⟩)

/-- Writes operations. -/
def record (here : Place) (ops : List Op) : Journaling Unit :=
  modify fun j => { j with entries := j.entries ++ here.entries ops j.scopes }

/-- Declares a name that is not bound. -/
def declareUnbound (here : Place) (name : String) : Journaling Unit :=
  modify fun j =>
    if j.scopes.isBound here.scope name then j
    else { j with scopes := j.scopes.declare here.scope name }

/-- Opens a scope and writes there. -/
def inScope (here : Place) (kind : ScopeKind) (write : ScopeId → Journaling Unit) :
    Journaling Unit := do
  let scope ← modifyGet fun j =>
    ((j.scopes.push here.scope kind).2, { j with scopes := (j.scopes.push here.scope kind).1 })
  write scope

/-- Declares the parameters of a body and binds them to the arguments from number `n` on. -/
def recordParams (here : Place) : Nat → List String → Journaling Unit
  | _, [] => pure ()
  | n, name :: rest => do
    modify fun j => { j with scopes := j.scopes.declare here.scope name }
    here.record [.pushArg n.toUInt64, .setLocal name true]
    recordParams here (n + 1) rest

/-- Writes a body with a scope of its own: the operation that opens it, what stands before its
parameters, and the rest. -/
def inBody (here : Place) (kind : ScopeKind) (body : BodyKind) (opening : ScopeId → Op)
    (entry : List Op) (params : List String) (write : Place → Journaling Unit) : Journaling Unit :=
  here.inScope kind fun scope => do
    here.record [opening scope]
    let inside : Place := { scope, body }
    inside.record entry
    inside.recordParams 0 params
    write inside

end Place

namespace Expr

mutual

/-- Writes the code of an expression. -/
def journal (here : Place) : Expr → Journaling Unit
  | .int n => here.record [.pushInt n]
  | .str s => here.record [.pushString s]
  | .sym s => here.record [.pushSymbol s]
  | .nil => here.record [.pushNil]
  | .bool b => here.record [if b then .pushTrue else .pushFalse]
  | .self => here.record [.pushSelf]
  | .var name => do
    let j ← get
    here.record [if j.scopes.isBound here.scope name then .getLocal name
      else .send name 0 false false]
  | .assign name value => do
    here.declareUnbound name
    journal here value
    here.record [.dup, .setLocal name false]
  | .gvar name => here.record [.getGlobal name]
  | .gassign name value => do
    journal here value
    here.record [.dup, .setGlobal name]
  | .call receiver name args =>
    match explicitReceiver? receiver, args, reserved? name with
    | none, [], some op => here.record [op, .pushNil]
    | explicit, _, _ => do
      journalReceiver here receiver
      journalAll here args
      here.record [.send name args.length.toUInt64 explicit.isSome false]
  | .iter receiver name args params body => do
    journalReceiver here receiver
    journalAll here args
    here.inBody .block .block .defineBlock [] params fun inside => journalBody inside body
    here.record [.endBlock .block,
      .send name args.length.toUInt64 (explicitReceiver? receiver).isSome true]
  | .yield args => do
    journalAll here args
    here.record [.yield args.length.toUInt64]
  | .cond test yes no => do
    journal here test
    here.record [.ifTrue]
    here.inScope .hoisted fun scope => journalOption { here with scope } yes
    here.record [.orElse]
    here.inScope .hoisted fun scope => journalOption { here with scope } no
    here.record [.endBlock .cond]
  | .loop test body => do
    here.record [.whileTrue]
    here.inScope .hoisted fun scope => do
      let inside : Place := { here with scope, inLoop := true }
      journal inside test
      inside.record [.loopBody]
      journalStatements inside body
    here.record [.endBlock .loop, .pushNil]
  | .conj left right => do
    journal here left
    here.record [.dup, .ifTrue]
    here.inScope .hoisted fun scope => do
      let inside : Place := { here with scope }
      inside.record [.pop]
      journal inside right
    here.record [.orElse, .endBlock .cond]
  | .disj left right => do
    journal here left
    here.record [.dup, .ifTrue, .orElse]
    here.inScope .hoisted fun scope => do
      let inside : Place := { here with scope }
      inside.record [.pop]
      journal inside right
    here.record [.endBlock .cond]
  | .neg operand => do
    journal here operand
    here.record [.ifTrue, .pushFalse, .orElse, .pushTrue, .endBlock .cond]
  | .seq items => journalBody here items
  | .ret value =>
    if here.body = .block then throw .returnInBlock
    else do
      journalOption here value
      here.record [.ret, .pushNil]
  | .brk =>
    if here.inLoop then here.record [.breakOut, .pushNil]
    else throw (if here.body = .block then .breakInBlock else .breakOutsideLoop)
  | .next value =>
    if here.inLoop then do
      journalDropped here value
      here.record [.next false, .pushNil]
    else if here.body = .block then do
      journalOption here value
      here.record [.next true, .pushNil]
    else throw .nextOutsideLoop
  | .method name params body => do
    here.inBody .method .method (.defineMethod name) [.checkArgs params.length.toUInt64] params
      fun inside => journalBody inside body
    here.record [.endBlock .method]

/-- Writes the code of an expression that may be missing: nil then. -/
def journalOption (here : Place) : Option Expr → Journaling Unit
  | none => here.record [.pushNil]
  | some e => journal here e

/-- Writes the code of an expression that may be missing and whose value is not needed. -/
def journalDropped (here : Place) : Option Expr → Journaling Unit
  | none => pure ()
  | some e => do
    journal here e
    here.record [.pop]

/-- Writes the code of the receiver of a call. -/
def journalReceiver (here : Place) : Option Expr → Journaling Unit
  | none | some .self => pure ()
  | some e => journal here e

/-- Writes the code of expressions that each leave their value. -/
def journalAll (here : Place) : List Expr → Journaling Unit
  | [] => pure ()
  | e :: rest => do
    journal here e
    journalAll here rest

/-- Writes the code of expressions none of which leaves its value. -/
def journalStatements (here : Place) : List Expr → Journaling Unit
  | [] => pure ()
  | e :: rest => do
    journal here e
    here.record [.pop]
    journalStatements here rest

/-- Writes the code of a sequence, which leaves the value of its last expression. -/
def journalBody (here : Place) : List Expr → Journaling Unit
  | [] => here.record [.pushNil]
  | [e] => journal here e
  | e :: rest => do
    journal here e
    here.record [.pop]
    journalBody here rest

end

/-- Writes a program. Its value is dropped unless it is used. -/
def journalProgram (e : Expr) (used : Bool) : Journaling Unit := do
  let top : Place := {}
  journal top e
  top.record (if used then [] else [.pop])

end Expr

/-! ## Settled entries -/

variable {t t₁ t' T : ScopeTree} {s r : ScopeId} {here : Place} {m : Entry}
  {more more' : List Entry} {code code' : List Instruction} {x y : Journaling Unit} {ops : List Op}

/-- The entry, if it is an access, finds the variable in `T` that it found when it was written. -/
def Entry.Settled (T : ScopeTree) (m : Entry) : Prop :=
  ∀ name localOnly, m.instruction.op.access? = some (name, localOnly) → m.scopes.Sound ∧
    ∃ d r slot, Binds m.scopes name localOnly m.instruction.scope d r slot ∧
      Binds T name localOnly m.instruction.scope d r slot

/-- An access that is settled stays so while the scopes evolve. -/
theorem Entry.Settled.after (h : m.Settled t) (hev : Evolves r t t') : m.Settled t' := by
  intro name localOnly haccess
  obtain ⟨hsound, d, r, slot, hthen, hnow⟩ := h name localOnly haccess
  exact ⟨hsound, d, r, slot, hthen, hev.binds hnow⟩

/-- What is written is settled as long as nothing happens. -/
theorem settled_entries (ht : t.Sound) (hbound : ∀ op ∈ ops, ∀ name localOnly,
    op.access? = some (name, localOnly) → Bound t here.scope name localOnly) :
    ∀ m ∈ here.entries ops t, m.Settled t := by
  intro m hm name localOnly haccess
  obtain ⟨i, hi, rfl⟩ := List.mem_map.mp hm
  obtain ⟨op, hop, rfl⟩ := List.mem_map.mp hi
  obtain ⟨d, r, slot, hb⟩ := hbound op hop name localOnly haccess
  exact ⟨ht, d, r, slot, hb, hb⟩

/-- An instruction that names no variable has nothing to settle. -/
theorem settled_plain (h : (ops.all fun op => op.access?.isNone) = true) :
    ∀ m ∈ here.entries ops t, m.Settled T := by
  intro m hm name localOnly haccess
  obtain ⟨i, hi, rfl⟩ := List.mem_map.mp hm
  obtain ⟨op, hop, rfl⟩ := List.mem_map.mp hi
  have hnone := List.all_eq_true.mp h op hop
  rw [show op.access? = some (name, localOnly) from haccess] at hnone
  cases hnone

/-- A parameter does not leave its body, so that its assignment is settled for good. -/
theorem settled_param {scope : Scope} {name : String} {n : UInt64} (ht : t.Sound)
    (hs : t.get? here.scope = some scope) (hh : scope.hoist = false)
    (hname : scope.vars.contains name = true) (hext : t.Extends T) :
    ∀ m ∈ here.entries [.pushArg n, .setLocal name true] t, m.Settled T := by
  obtain ⟨slot, hslot⟩ := Option.isSome_iff_exists.mp hname
  obtain ⟨scope', hs', hx⟩ := hext.get? hs
  intro m hm x localOnly haccess
  rcases List.mem_cons.mp hm with rfl | hm
  · cases haccess
  · obtain rfl := List.mem_singleton.mp hm
    cases haccess
    exact ⟨ht, 0, here.scope, slot, .here hs hh hslot,
      .here hs' (hx.hoist.trans hh) (hx.vars _ _ hslot)⟩

/-! ## Steps of writing -/

/-- While the entries are written in scope `s`, the scopes change from `t` to `t'`; then the entries
are settled, and so is what was settled before. -/
structure Follows (s : ScopeId) (t : ScopeTree) (more : List Entry) (t' : ScopeTree) : Prop where
  size_le : t.size ≤ t'.size
  settles : t'.size ≤ 2 ^ 32 → ∀ r names, View t s r names →
    (∃ names', Declares r t t' names') ∧ ∀ m ∈ more, m.Settled t'

theorem Follows.append (h : Follows s t more t₁) (h' : Follows s t₁ more' t') :
    Follows s t (more ++ more') t' := by
  refine ⟨Nat.le_trans h.size_le h'.size_le, fun hsmall r names hv => ?_⟩
  obtain ⟨⟨names₁, hd⟩, hsettled⟩ := h.settles (Nat.le_trans h'.size_le hsmall) r names hv
  obtain ⟨⟨names', hd'⟩, hsettled'⟩ := h'.settles hsmall r names₁ (hv.after hd)
  refine ⟨⟨names', hd.trans hd'⟩, fun m hm => ?_⟩
  rcases List.mem_append.mp hm with hm | hm
  · exact (hsettled m hm).after hd'.toEvolves
  · exact hsettled' m hm

/-- What is written in a hoisted scope is written in the scope that it hoists to. -/
theorem Follows.hoisted
    (h : Follows (t.push s .hoisted).2 (t.push s .hoisted).1 more t') : Follows s t more t' := by
  have hsize := ScopeTree.size_push t s .hoisted
  have hle := h.size_le
  refine ⟨by omega, fun hsmall r names hv => ?_⟩
  obtain ⟨hpush, hin⟩ := hv.hoisted (by omega)
  obtain ⟨⟨names', hd⟩, hsettled⟩ := h.settles hsmall r names hin
  exact ⟨⟨names', hpush.trans hd⟩, hsettled⟩

/-- An assignment: its name is bound before its value is written and stays so. -/
theorem Follows.assign {name : String}
    (h : Follows here.scope (if t.isBound here.scope name then t else t.declare here.scope name)
      more t') :
    Follows here.scope t (more ++ here.entries [.dup, .setLocal name false] t') t' := by
  have hassign := declaring_assign here.scope t [] name
  refine ⟨Nat.le_trans hassign.size_le h.size_le, fun hsmall r names hv => ?_⟩
  have hdeclares := declares_assign hv.proper hv.owner hv.shows name
  have hv₁ := hv.after hdeclares
  obtain ⟨⟨names', hd⟩, hsettled⟩ := h.settles hsmall r _ hv₁
  have hbound : Bound t' here.scope name false := by
    obtain ⟨inner, outer, rfl⟩ := hv.shows.ne_nil
    have hseen := Names.isSome_level?_declare inner outer name
    exact Bound.extends ((hv₁.shows.bound_iff hv₁.owner).mpr hseen) hd.toEvolves.extends
  refine ⟨⟨names', hdeclares.trans hd⟩, fun m hm => ?_⟩
  rcases List.mem_append.mp hm with hm | hm
  · exact hsettled m hm
  · refine settled_entries (hv₁.after hd).proper.toSound (fun op hop x localOnly haccess => ?_) m hm
    rcases List.mem_cons.mp hop with rfl | hop
    · cases haccess
    · obtain rfl := List.mem_singleton.mp hop
      cases haccess
      exact hbound

/-- Run on the scopes `t`, the step writes the code in scope `s` and leaves the scopes `t'`. -/
def Journaled (s : ScopeId) (x : Journaling Unit) (t : ScopeTree) (code : List Instruction)
    (t' : ScopeTree) : Prop :=
  ∃ more, (∀ entries, x ⟨entries, t⟩ = .ok ((), ⟨entries ++ more, t'⟩)) ∧
    more.map (·.instruction) = code ∧ Follows s t more t'

theorem Journaled.of_eq (h : Journaled s x t code t') (heq : code = code') :
    Journaled s x t code' t' :=
  heq ▸ h

/-- The journal of two pieces is that of the first and then that of the second. -/
theorem Journaled.bind (h : Journaled s x t code t₁) (h' : Journaled s y t₁ code' t') :
    Journaled s (do x; y) t (code ++ code') t' := by
  obtain ⟨more, hx, rfl, hfollows⟩ := h
  obtain ⟨more', hy, rfl, hfollows'⟩ := h'
  refine ⟨more ++ more', fun entries => ?_, List.map_append, hfollows.append hfollows'⟩
  show (x ⟨entries, t⟩ >>= fun p => y p.2) = _
  rw [hx]
  show y ⟨entries ++ more, t₁⟩ = _
  rw [hy, List.append_assoc]

theorem journaled_pure (s : ScopeId) (t : ScopeTree) : Journaled s (pure ()) t [] t := by
  refine ⟨[], fun entries => ?_, rfl, Nat.le_refl _, fun _ r names hv => ?_⟩
  · rw [List.append_nil]
    rfl
  · exact ⟨⟨names, .refl r t, hv.shows⟩, fun _ hm => nomatch hm⟩

theorem map_instruction_entries (here : Place) (ops : List Op) (t : ScopeTree) :
    (here.entries ops t).map (·.instruction) = here.emit ops := by
  rw [Place.entries, List.map_map]
  exact List.map_id _

/-- Recording instructions changes no scope. -/
theorem journaled_record
    (h : ∀ r names, View t here.scope r names → ∀ m ∈ here.entries ops t, m.Settled t) :
    Journaled here.scope (here.record ops) t (here.emit ops) t := by
  refine ⟨here.entries ops t, fun _ => rfl, map_instruction_entries here ops t, Nat.le_refl _, ?_⟩
  intro _ r names hv
  exact ⟨⟨names, .refl r t, hv.shows⟩, h r names hv⟩

theorem journaled_plain (h : (ops.all fun op => op.access?.isNone) = true) :
    Journaled here.scope (here.record ops) t (here.emit ops) t :=
  journaled_record fun _ _ _ => settled_plain h

theorem Journaled.hoisted {write : ScopeId → Journaling Unit}
    (h : Journaled (t.push here.scope .hoisted).2 (write (t.push here.scope .hoisted).2)
      (t.push here.scope .hoisted).1 code t') :
    Journaled here.scope (here.inScope .hoisted write) t code t' := by
  obtain ⟨more, hx, hcode, hfollows⟩ := h
  exact ⟨more, hx, hcode, hfollows.hoisted⟩

/-- An assignment declares its name before its value is written, and stores behind it. -/
theorem Journaled.assign {name : String}
    (h : Journaled here.scope x
      (if t.isBound here.scope name then t else t.declare here.scope name) code t') :
    Journaled here.scope (do
      here.declareUnbound name
      x
      here.record [.dup, .setLocal name false]) t
      (code ++ here.emit [.dup, .setLocal name false]) t' := by
  obtain ⟨more, hx, rfl, hfollows⟩ := h
  refine ⟨_, fun entries => ?_, ?_, hfollows.assign⟩
  · have hdeclare : here.declareUnbound name ⟨entries, t⟩ = .ok ((), ⟨entries,
        if t.isBound here.scope name then t else t.declare here.scope name⟩) := by
      show Except.ok ((), if t.isBound here.scope name then _ else _) = _
      split <;> rfl
    show (here.declareUnbound name ⟨entries, t⟩ >>= fun p => (x p.2 >>= fun p =>
      here.record [.dup, .setLocal name false] p.2)) = _
    rw [hdeclare]
    show (x ⟨entries, _⟩ >>= fun p => here.record [.dup, .setLocal name false] p.2) = _
    rw [hx, ← List.append_assoc]
    rfl
  · rw [List.map_append, map_instruction_entries]

/-! ## Bodies -/

/-- The parameters are written, and settled in every tree that comes after. -/
theorem recordParams_entries (here : Place) (params : List String) :
    ∀ n t, ∃ more, (∀ entries, here.recordParams n params ⟨entries, t⟩ =
        .ok ((), ⟨entries ++ more, (Expr.bindParams here n params t).2⟩)) ∧
      more.map (·.instruction) = (Expr.bindParams here n params t).1 ∧
      ∀ scope T, t.Proper → t.get? here.scope = some scope → scope.hoist = false →
        (Expr.bindParams here n params t).2.Extends T → ∀ m ∈ more, m.Settled T := by
  induction params with
  | nil =>
    intro n t
    refine ⟨[], fun entries => ?_, rfl, fun _ _ _ _ _ _ _ hm => nomatch hm⟩
    rw [List.append_nil]
    rfl
  | cons name rest ih =>
    intro n t
    obtain ⟨more, hrun, hcode, hsettled⟩ := ih (n + 1) (t.declare here.scope name)
    let first := here.entries [.pushArg n.toUInt64, .setLocal name true] (t.declare here.scope name)
    refine ⟨first ++ more, fun entries => ?_, ?_, fun scope T ht hs hh hext => ?_⟩
    · rw [← List.append_assoc]
      exact hrun (entries ++ first)
    · rw [List.map_append, map_instruction_entries, hcode]
      rfl
    · obtain ⟨vars, hs', hvars, -⟩ := ScopeTree.declare_owner ht.toSound (.self hs hh) hs name
      have ht' : (t.declare here.scope name).Proper := ScopeTree.proper_declare ht
      obtain ⟨hgrows, -⟩ := bindParams_scopes ht' hs' hh (n + 1) rest
      have hname : vars.contains name = true := by
        rw [hvars, beq_self_eq_true, Bool.true_or]
      intro m hm
      rcases List.mem_append.mp hm with hm | hm
      · exact settled_param ht'.toSound hs' hh hname (hgrows.extends.trans hext) m hm
      · exact hsettled _ T ht' hs' hh hext m hm

/-- A body with a scope of its own. The scopes after its parameters are the first that its content
sees. -/
theorem Journaled.body {kind : ScopeKind} {body : BodyKind} {opening : ScopeId → Op}
    {entry : List Op} {params : List String} {write : Place → Journaling Unit} {inside : Place}
    (hkind : kind ≠ .hoisted) (hinside : inside = { scope := (t.push here.scope kind).2, body })
    (hopening : (opening inside.scope).access?.isNone = true)
    (hentry : (entry.all fun op => op.access?.isNone) = true)
    (hin : ∀ r names, t.size < 2 ^ 32 → View t here.scope r names → ∃ names',
      View (Expr.bindParams inside 0 params (t.push here.scope kind).1).2 inside.scope inside.scope
        names')
    (h : Journaled inside.scope (write inside)
      (Expr.bindParams inside 0 params (t.push here.scope kind).1).2 code t') :
    Journaled here.scope (here.inBody kind body opening entry params write) t
      (here.emit [opening inside.scope] ++ inside.emit entry ++
        (Expr.bindParams inside 0 params (t.push here.scope kind).1).1 ++ code) t' := by
  obtain ⟨more, hrun, rfl, hfollows⟩ := h
  obtain ⟨binding, hparams, hcode, hsettled⟩ :=
    recordParams_entries inside params 0 (t.push here.scope kind).1
  have hsize : (Expr.bindParams inside 0 params (t.push here.scope kind).1).2.size =
      t.size + 1 := by
    rw [size_bindParams, ScopeTree.size_push]
  have hle := hfollows.size_le
  refine ⟨here.entries [opening inside.scope] (t.push here.scope kind).1 ++
    inside.entries entry (t.push here.scope kind).1 ++ binding ++ more, fun entries => ?_, ?_,
    by omega, fun hsmall r names hv => ?_⟩
  · subst hinside
    show (Place.recordParams _ 0 params ⟨_, _⟩ >>= fun p => write _ p.2) = _
    rw [hparams]
    show write _ ⟨_, _⟩ = _
    rw [hrun]
    simp only [List.append_assoc]
  · simp only [List.map_append, map_instruction_entries, hcode]
  · have hlt : t.size < 2 ^ 32 := by omega
    have hscope : inside.scope = (t.push here.scope kind).2 := by rw [hinside]
    obtain ⟨hgrows, hsame, -⟩ := bindParams_opened 0 params hv hlt hkind hscope
    obtain ⟨names', hview⟩ := hin r names hlt hv
    obtain ⟨⟨names'', hd⟩, hinner⟩ := hfollows.settles hsmall inside.scope names' hview
    have hold : t.size ≤ inside.scope.index := Nat.le_of_eq (by rw [hscope, index_push hlt])
    refine ⟨⟨names, .inside hv hgrows hsame hold hd.toEvolves⟩, fun m hm => ?_⟩
    have hnew : (t.push here.scope kind).1.get? inside.scope =
        some (ScopeTree.opened here.scope kind) := by rw [hscope, ScopeTree.get?_push hlt]
    have hproper : (t.push here.scope kind).1.Proper :=
      ScopeTree.proper_push hv.proper hv.owner.index_lt
    rcases List.mem_append.mp hm with hm | hm
    · rcases List.mem_append.mp hm with hm | hm
      · rcases List.mem_append.mp hm with hm | hm
        · exact settled_plain (by simpa using hopening) m hm
        · exact settled_plain hentry m hm
      · exact hsettled _ t' hproper hnew (ScopeTree.opened_hoist hkind) hd.toEvolves.extends m hm
    · exact hinner m hm

/-! ## Lowering -/

namespace Expr

/-- Whether the receiver is on the stack can be told from the text. -/
theorem explicit_lowerReceiver {receiver : Option Expr} {explicit : Bool}
    (h : lowerReceiver here t receiver = .ok (code, explicit, t')) :
    explicit = (explicitReceiver? receiver).isSome := by
  cases receiver with
  | none =>
    cases h
    rfl
  | some e =>
    rcases lowerReceiver_some_eq_ok h with ⟨rfl, -, rfl, -⟩ | ⟨hself, rfl, -⟩
    · rfl
    · cases e <;> first | rfl | exact absurd rfl hself

theorem access?_reserved? {name : String} {op : Op} (h : reserved? name = some op) :
    op.access?.isNone = true := by
  unfold reserved? at h
  split at h <;> cases h <;> rfl

/-- The scopes of the moment decide between a variable and a call. -/
theorem journaled_var {name : String} {op : Op} (hop : (if t.isBound here.scope name then
    Op.getLocal name else .send name 0 false false) = op)
    (h : Journaled here.scope (here.record [op]) t (here.emit [op]) t) :
    Journaled here.scope (journal here (.var name)) t (here.emit [op]) t := by
  subst hop
  exact h

/-- A call is its receiver, its arguments and the message, unless its name is a directive. -/
theorem journal_call {receiver : Option Expr} {name : String} {args : List Expr}
    (h : ∀ op, explicitReceiver? receiver = none → args = [] → reserved? name = some op → False) :
    journal here (.call receiver name args) = (do
      journalReceiver here receiver
      journalAll here args
      here.record [.send name args.length.toUInt64 (explicitReceiver? receiver).isSome false]) := by
  unfold journal
  split
  · rename_i hreceiver hname
    exact (h _ hreceiver rfl hname).elim
  · rfl

theorem journalReceiver_of_ne {e : Expr} (h : e ≠ .self) :
    journalReceiver here (some e) = journal here e := by
  unfold journalReceiver
  split
  · rename_i heq
    cases heq
  · rename_i heq
    exact absurd (Option.some.inj heq) h
  · rename_i heq
    cases heq
    rfl

mutual

/-- **The journal holds the code of lowering**, and its entries are settled. -/
theorem journaled_lower {here : Place} {t t' : ScopeTree} {code : List Instruction} (e : Expr)
    (h : lower here t e = .ok (code, t')) : Journaled here.scope (journal here e) t code t' := by
  cases e with
  | int | str | sym | nil | self | gvar =>
    cases h
    exact journaled_plain rfl
  | bool b =>
    cases h
    exact journaled_plain (by cases b <;> rfl)
  | var name =>
    unfold lower at h
    split at h
    · rename_i hbound
      cases h
      refine journaled_var (if_pos hbound) (journaled_record fun r names hv =>
        settled_entries hv.proper.toSound fun op hop x localOnly haccess => ?_)
      obtain rfl := List.mem_singleton.mp hop
      cases haccess
      exact (ScopeTree.isBound_iff hv.proper.toSound).mp hbound
    · rename_i hbound
      cases h
      exact journaled_var (if_neg hbound) (journaled_plain rfl)
  | assign name value =>
    unfold lower at h
    obtain ⟨⟨inner, t₁⟩, h₁, h⟩ := bind_eq_ok h
    cases h
    exact (journaled_lower value h₁).assign
  | gassign name value =>
    unfold lower at h
    obtain ⟨⟨inner, t₁⟩, h₁, h⟩ := bind_eq_ok h
    cases h
    exact (journaled_lower value h₁).bind (journaled_plain rfl)
  | call receiver name args =>
    unfold lower at h
    split at h
    · rename_i op hreceiver hname
      cases h
      unfold journal
      rw [hreceiver, hname]
      exact journaled_plain (by simpa [Op.access?] using access?_reserved? hname)
    · rename_i hnot
      obtain ⟨⟨target, explicit, t₁⟩, h₁, h⟩ := bind_eq_ok h
      obtain ⟨⟨inner, t₂⟩, h₂, h⟩ := bind_eq_ok h
      cases h
      rw [journal_call hnot, explicit_lowerReceiver h₁, List.append_assoc]
      exact (journaled_lowerReceiver receiver h₁).bind <| (journaled_lowerAll _ h₂).bind
        (journaled_plain rfl)
  | iter receiver name args params body =>
    unfold lower at h
    obtain ⟨⟨target, explicit, t₁⟩, h₁, h⟩ := bind_eq_ok h
    obtain ⟨⟨inner, t₂⟩, h₂, h⟩ := bind_eq_ok h
    obtain ⟨⟨content, t₃⟩, h₃, h⟩ := bind_eq_ok h
    cases h
    have hbody : Journaled here.scope (here.inBody .block .block .defineBlock [] params
        fun inside => journalBody inside body) t₂ _ t' :=
      .body (by decide) rfl rfl rfl (fun r names hlt hv => ⟨_, hv.block hlt rfl⟩)
        (journaled_lowerBody body h₃)
    rw [explicit_lowerReceiver h₁]
    refine Journaled.of_eq ((journaled_lowerReceiver receiver h₁).bind <|
      (journaled_lowerAll args h₂).bind <| hbody.bind (journaled_plain rfl)) ?_
    simp only [List.append_assoc]
    rfl
  | yield args =>
    unfold lower at h
    obtain ⟨⟨inner, t₁⟩, h₁, h⟩ := bind_eq_ok h
    cases h
    exact (journaled_lowerAll args h₁).bind (journaled_plain rfl)
  | cond test yes no =>
    unfold lower at h
    obtain ⟨⟨testCode, t₁⟩, h₁, h⟩ := bind_eq_ok h
    obtain ⟨⟨yesCode, t₂⟩, h₂, h⟩ := bind_eq_ok h
    obtain ⟨⟨noCode, t₃⟩, h₃, h⟩ := bind_eq_ok h
    cases h
    have hyes : Journaled here.scope (here.inScope .hoisted fun scope =>
        journalOption { here with scope } yes) t₁ yesCode t₂ :=
      .hoisted (journaled_lowerOption yes h₂)
    have hno : Journaled here.scope (here.inScope .hoisted fun scope =>
        journalOption { here with scope } no) t₂ noCode t' :=
      .hoisted (journaled_lowerOption no h₃)
    simp only [List.append_assoc]
    exact (journaled_lower test h₁).bind <| (journaled_plain rfl).bind <| hyes.bind <|
      (journaled_plain rfl).bind <| hno.bind (journaled_plain rfl)
  | loop test body =>
    unfold lower at h
    obtain ⟨⟨testCode, t₁⟩, h₁, h⟩ := bind_eq_ok h
    obtain ⟨⟨bodyCode, t₂⟩, h₂, h⟩ := bind_eq_ok h
    cases h
    have hinside : Journaled here.scope (here.inScope .hoisted fun scope => do
        journal { here with scope, inLoop := true } test
        Place.record { here with scope, inLoop := true } [.loopBody]
        journalStatements { here with scope, inLoop := true } body) t _ t' :=
      .hoisted ((journaled_lower test h₁).bind <| (journaled_plain rfl).bind
        (journaled_lowerStatements body h₂))
    refine Journaled.of_eq ((journaled_plain rfl).bind <| hinside.bind (journaled_plain rfl)) ?_
    simp only [List.append_assoc]
  | conj left right | disj left right =>
    unfold lower at h
    obtain ⟨⟨leftCode, t₁⟩, h₁, h⟩ := bind_eq_ok h
    obtain ⟨⟨rightCode, t₂⟩, h₂, h⟩ := bind_eq_ok h
    cases h
    have hinside : Journaled here.scope (here.inScope .hoisted fun scope => do
        Place.record { here with scope } [.pop]
        journal { here with scope } right) t₁ _ t' :=
      .hoisted ((journaled_plain rfl).bind (journaled_lower right h₂))
    refine Journaled.of_eq ((journaled_lower left h₁).bind <| (journaled_plain rfl).bind <|
      hinside.bind (journaled_plain rfl)) ?_
    simp only [List.append_assoc]
    rfl
  | neg operand =>
    unfold lower at h
    obtain ⟨⟨inner, t₁⟩, h₁, h⟩ := bind_eq_ok h
    cases h
    exact (journaled_lower operand h₁).bind (journaled_plain rfl)
  | seq items =>
    unfold lower at h
    exact journaled_lowerBody items h
  | ret value =>
    unfold lower at h
    unfold journal
    split at h
    · cases h
    · rename_i hplace
      obtain ⟨⟨inner, t₁⟩, h₁, h⟩ := bind_eq_ok h
      cases h
      rw [if_neg hplace]
      exact (journaled_lowerOption value h₁).bind (journaled_plain rfl)
  | brk =>
    unfold lower at h
    unfold journal
    split at h
    · rename_i hplace
      cases h
      rw [if_pos hplace]
      exact journaled_plain rfl
    · cases h
  | next value =>
    unfold lower at h
    unfold journal
    split at h
    · rename_i hloop
      obtain ⟨⟨inner, t₁⟩, h₁, h⟩ := bind_eq_ok h
      cases h
      rw [if_pos hloop]
      exact (journaled_lowerDropped value h₁).bind (journaled_plain rfl)
    · rename_i hloop
      split at h
      · rename_i hblock
        obtain ⟨⟨inner, t₁⟩, h₁, h⟩ := bind_eq_ok h
        cases h
        rw [if_neg hloop, if_pos hblock]
        exact (journaled_lowerOption value h₁).bind (journaled_plain rfl)
      · cases h
  | method name params body =>
    unfold lower at h
    obtain ⟨⟨content, t₁⟩, h₁, h⟩ := bind_eq_ok h
    cases h
    have hbody : Journaled here.scope (here.inBody .method .method (.defineMethod name)
        [.checkArgs params.length.toUInt64] params fun inside => journalBody inside body) t _ t' :=
      .body (by decide) rfl rfl rfl (fun r names hlt hv => ⟨_, hv.method hlt rfl⟩)
        (journaled_lowerBody body h₁)
    exact hbody.bind (journaled_plain rfl)

theorem journaled_lowerOption {here : Place} {t t' : ScopeTree} {code : List Instruction}
    (e : Option Expr) (h : lowerOption here t e = .ok (code, t')) :
    Journaled here.scope (journalOption here e) t code t' := by
  cases e with
  | none =>
    cases h
    exact journaled_plain rfl
  | some e =>
    unfold lowerOption at h
    exact journaled_lower e h

theorem journaled_lowerDropped {here : Place} {t t' : ScopeTree} {code : List Instruction}
    (e : Option Expr) (h : lowerDropped here t e = .ok (code, t')) :
    Journaled here.scope (journalDropped here e) t code t' := by
  cases e with
  | none =>
    cases h
    exact journaled_pure _ _
  | some e =>
    unfold lowerDropped at h
    obtain ⟨⟨inner, t₁⟩, h₁, h⟩ := bind_eq_ok h
    cases h
    exact (journaled_lower e h₁).bind (journaled_plain rfl)

theorem journaled_lowerReceiver {here : Place} {t t' : ScopeTree} {code : List Instruction}
    {explicit : Bool} (e : Option Expr) (h : lowerReceiver here t e = .ok (code, explicit, t')) :
    Journaled here.scope (journalReceiver here e) t code t' := by
  cases e with
  | none =>
    cases h
    exact journaled_pure _ _
  | some e =>
    rcases lowerReceiver_some_eq_ok h with ⟨rfl, rfl, -, rfl⟩ | ⟨hself, -, h₁⟩
    · exact journaled_pure _ _
    · rw [journalReceiver_of_ne hself]
      exact journaled_lower e h₁

theorem journaled_lowerAll {here : Place} {t t' : ScopeTree} {code : List Instruction}
    (es : List Expr) (h : lowerAll here t es = .ok (code, t')) :
    Journaled here.scope (journalAll here es) t code t' := by
  cases es with
  | nil =>
    cases h
    exact journaled_pure _ _
  | cons e rest =>
    unfold lowerAll at h
    obtain ⟨⟨first, t₁⟩, h₁, h⟩ := bind_eq_ok h
    obtain ⟨⟨more, t₂⟩, h₂, h⟩ := bind_eq_ok h
    cases h
    exact (journaled_lower e h₁).bind (journaled_lowerAll rest h₂)

theorem journaled_lowerStatements {here : Place} {t t' : ScopeTree} {code : List Instruction}
    (es : List Expr) (h : lowerStatements here t es = .ok (code, t')) :
    Journaled here.scope (journalStatements here es) t code t' := by
  cases es with
  | nil =>
    cases h
    exact journaled_pure _ _
  | cons e rest =>
    unfold lowerStatements at h
    obtain ⟨⟨first, t₁⟩, h₁, h⟩ := bind_eq_ok h
    obtain ⟨⟨more, t₂⟩, h₂, h⟩ := bind_eq_ok h
    cases h
    rw [List.append_assoc]
    exact (journaled_lower e h₁).bind <| (journaled_plain rfl).bind
      (journaled_lowerStatements rest h₂)

theorem journaled_lowerBody {here : Place} {t t' : ScopeTree} {code : List Instruction}
    (es : List Expr) (h : lowerBody here t es = .ok (code, t')) :
    Journaled here.scope (journalBody here es) t code t' := by
  cases es with
  | nil =>
    cases h
    exact journaled_plain rfl
  | cons e rest =>
    cases rest with
    | nil =>
      unfold lowerBody at h
      exact journaled_lower e h
    | cons e' rest =>
      unfold lowerBody at h
      obtain ⟨⟨first, t₁⟩, h₁, h⟩ := bind_eq_ok h
      obtain ⟨⟨more, t₂⟩, h₂, h⟩ := bind_eq_ok h
      cases h
      rw [List.append_assoc]
      exact (journaled_lower e h₁).bind <| (journaled_plain rfl).bind
        (journaled_lowerBody (e' :: rest) h₂)

end

/-- **The journal of a program writes its code.** -/
theorem journaled_toProgram {e : Expr} {used : Bool} {P : Program} (h : e.toProgram used = .ok P) :
    Journaled .root (e.journalProgram used) .initial P.code P.scopes := by
  obtain ⟨⟨code, scopes⟩, hlower, h⟩ := bind_eq_ok h
  cases h
  have hend : ∀ ops, (ops.all fun op => op.access?.isNone) = true →
      Journaled .root (do journal {} e; Place.record {} ops) .initial (code ++ Place.emit {} ops)
        scopes := fun ops hops => (journaled_lower e hlower).bind (journaled_plain hops)
  cases used with
  | false => exact hend [.pop] rfl
  | true => exact hend [] rfl

end Expr

/-- **An access means the variable that it meant when it was written.** Written step by step, the
code of a program is that of lowering; and each instruction that reads or assigns a variable finds
in the scopes of the finished program the declaration that it found in the scopes of its moment: in
the same scope, the same number of blocks further out, with the same slot. -/
theorem accesses_keep_bindings {e : Expr} {used : Bool} {P : Program} (h : e.toProgram used = .ok P)
    (hsmall : P.scopes.size ≤ 2 ^ 32) :
    ∃ j, e.journalProgram used {} = .ok ((), j) ∧ j.entries.map (·.instruction) = P.code ∧
      j.scopes = P.scopes ∧
      ∀ m ∈ j.entries, ∀ name localOnly, m.instruction.op.access? = some (name, localOnly) →
        ∃ found, m.scopes.resolve? m.instruction.scope name localOnly = some (.ok found) ∧
          P.scopes.resolve? m.instruction.scope name localOnly = some (.ok found) := by
  obtain ⟨more, hrun, hcode, hfollows⟩ := Expr.journaled_toProgram h
  obtain ⟨⟨names, hdeclares⟩, hsettled⟩ := hfollows.settles hsmall .root [[]] view_initial
  have hproper := hdeclares.toEvolves.proper ScopeTree.proper_initial
  refine ⟨⟨more, P.scopes⟩, hrun [], hcode, rfl, fun m hm name localOnly haccess => ?_⟩
  obtain ⟨hsound, d, r, slot, hthen, hnow⟩ := hsettled m hm name localOnly haccess
  exact ⟨⟨r, d, slot⟩, (ScopeTree.resolve?_eq_ok_iff hsound).mpr hthen,
    (ScopeTree.resolve?_eq_ok_iff hproper.toSound).mpr hnow⟩

/-- A block that assigns `sum` before the top level does, inside it a block whose parameter hides
the one around it, and then assignments to both names at the top level. -/
def Expr.lateNames : Expr := .seq [
  .iter none "each" [] ["item"] [
    .assign "sum" (.var "item"),
    .iter none "each" [] ["item"] [.assign "sum" (.var "item")]],
  .assign "sum" (.int 0),
  .cond (.var "sum") (some (.assign "item" (.int 1))) none]

theorem lateNames_keep_bindings :
    ∃ P j, Expr.lateNames.toProgram true = .ok P ∧ P.scopes.size ≤ 2 ^ 32 ∧
      Expr.lateNames.journalProgram true {} = .ok ((), j) ∧
      (j.entries.filterMap fun m => m.instruction.op.access?).length = 9 ∧
      ∀ m ∈ j.entries, ∀ name localOnly, m.instruction.op.access? = some (name, localOnly) →
        ∃ found, m.scopes.resolve? m.instruction.scope name localOnly = some (.ok found) ∧
          P.scopes.resolve? m.instruction.scope name localOnly = some (.ok found) := by
  obtain ⟨P, hP, hsmall, hcount⟩ : ∃ P, Expr.lateNames.toProgram true = .ok P ∧
      P.scopes.size ≤ 2 ^ 32 ∧ (P.code.filterMap fun i => i.op.access?).length = 9 :=
    ⟨_, rfl, by decide +kernel, by decide +kernel⟩
  obtain ⟨j, hj, hcode, -, hkeep⟩ := accesses_keep_bindings hP hsmall
  refine ⟨P, j, hP, hsmall, hj, ?_, hkeep⟩
  rw [← hcode, List.filterMap_map] at hcount
  exact hcount

end StackCode
