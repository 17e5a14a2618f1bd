import StackCode.Proofs.GeneratedHeights

/-!
# What the generator makes of code

`Generates t link seg r d r' d'` is a derivation of what any code becomes that does become C,
whether or not a check accepts it. It follows the blocks that the generator cuts out, and says for
every instruction what it adds to the region and to the unit. Whenever the generator succeeds there
is one (`exists_generates`), so that facts about generated C are proved by induction on it.

What a reference of the C stands for is left open (`Linking`). While the unit is in the making it is
the number that a text has got there; in the end it is an entry of the finished unit.
-/

namespace StackCode.CUnit

/-! ## Single instructions -/

/-- What references stand for: those to a symbol or a string that an instruction names while the
unit is in the making, and those to the functions of bodies. -/
structure Linking where
  symbol : Draft → String → Ref → Prop
  string : Draft → String → Ref → Prop
  function : Function → Prop
  /-- A reference shows what it stands for. -/
  text : ∀ {d s ref}, symbol d s ref → ref.text = s

/-- The references that a unit in the making hands out. -/
def Linking.making : Linking where
  symbol d s ref := ref = d.symbolRef s
  string d s ref := ref = d.stringRef s
  function _ := True
  text h := h ▸ rfl

section

variable (t : ScopeTree) (link : Linking) (d : Draft)

/-- The value that an instruction puts on the stack as it stands. -/
inductive Constant : Op → Atom → Prop
  | int (n : Int64) : Constant (.pushInt n) (.int n)
  | string {s : String} {ref : Ref} (h : link.string d s ref) : Constant (.pushString s) (.str ref)
  | symbol {s : String} {ref : Ref} (h : link.symbol d s ref) : Constant (.pushSymbol s) (.sym ref)
  | nil : Constant .pushNil .nil
  | yes : Constant .pushTrue (.bool true)
  | no : Constant .pushFalse (.bool false)
  | self : Constant .pushSelf .self
  | arg (n : UInt64) : Constant (.pushArg n) (.arg n)

/-- What an instruction computes from the stack, and the operands that it leaves there. -/
inductive Computed (i : Instruction) (stack : List Operand) : Rhs → List Operand → Prop
  | getLocal {name : String} {found : Resolved} (hi : i.op = .getLocal name)
      (h : t.resolve? i.scope name false = some (.ok found)) :
      Computed i stack (.load (.local found.depth found.slot name)) stack
  | getGlobal {name : String} {ref : Ref} (hi : i.op = .getGlobal name)
      (h : link.symbol d name ref) : Computed i stack (.load (.global ref)) stack
  | send {message : String} {argc : UInt64} {ref : Ref} {target block : Option Operand}
      {args below : List Operand} (hi : i.op = .send message argc target.isSome block.isSome)
      (hargs : args.length = argc.toNat)
      (hs : stack = block.toList ++ (args.reverse ++ (target.toList ++ below)))
      (h : link.symbol d message ref) : Computed i stack (.send target ref args block) below
  | yield {argc : UInt64} {args below : List Operand} (hi : i.op = .yield argc)
      (hargs : args.length = argc.toNat) (hs : stack = args.reverse ++ below) :
      Computed i stack (.yield args) below

/-- The statement that an instruction becomes, and the operands that it leaves. -/
inductive Executed (i : Instruction) (stack : List Operand) : Stmt → List Operand → Prop
  | setLocal {name : String} {localOnly : Bool} {found : Resolved} {v : Operand}
      {below : List Operand} (hi : i.op = .setLocal name localOnly) (hs : stack = v :: below)
      (h : t.resolve? i.scope name localOnly = some (.ok found)) :
      Executed i stack (.store (.local found.depth found.slot name) v) below
  | setGlobal {name : String} {ref : Ref} {v : Operand} {below : List Operand}
      (hi : i.op = .setGlobal name) (hs : stack = v :: below) (h : link.symbol d name ref) :
      Executed i stack (.store (.global ref) v) below
  | leave {v : Operand} {below : List Operand} (hi : i.op = .ret ∨ i.op = .next true)
      (hs : stack = v :: below) : Executed i stack (.ret v) below
  | checkArgs {expected : UInt64} (hi : i.op = .checkArgs expected) :
      Executed i stack (.checkArgs expected) stack
  | breakOut (hi : i.op = .breakOut) : Executed i stack .breakLoop stack
  | nextRound (hi : i.op = .next false) : Executed i stack .continueLoop stack
  | halt (hi : i.op = .halt) : Executed i stack .exit stack
  | setVisibility {v : Visibility} (hi : i.op = .setVisibility v) :
      Executed i stack (.setVisibility v) stack

/-- What an instruction that opens no block does to a region. -/
inductive Acts (i : Instruction) (r : Region) : Region → Prop
  | constant {a : Atom} (h : Constant link d i.op a) : Acts i r (r.push (.literal a))
  | pop {r' : Region} (hi : i.op = .pop) (h : ∀ index, r.discard index = .ok r') : Acts i r r'
  | dup {v : Operand} {below : List Operand} (hi : i.op = .dup) (hs : r.stack = v :: below) :
      Acts i r (r.push v)
  | compute {value : Rhs} {below : List Operand} (h : Computed t link d i r.stack value below) :
      Acts i r ({ r with stack := below }.memoize d.nextTemp value)
  | execute {s : Stmt} {below : List Operand} (h : Executed t link d i r.stack s below) :
      Acts i r ({ r with stack := below }.emit s)

end

/-- The unit behind an instruction that opens no block. -/
def Draft.after (d : Draft) : Op → Draft
  | .pushString s => d.addString s
  | .pushSymbol s | .setGlobal s => d.addSymbol s
  | .getGlobal s | .send s .. => (d.addSymbol s).addTemps 1
  | .getLocal _ | .yield _ => d.addTemps 1
  | _ => d

/-- An instruction adds to a unit and takes nothing away. -/
theorem Draft.grows_after (d : Draft) (op : Op) : d.Grows (d.after op) := by
  cases op with
  | pushString s => exact d.grows_addString s
  | pushSymbol s | setGlobal s => exact d.grows_addSymbol s
  | getGlobal s | send s => exact (d.grows_addSymbol s).trans (Draft.grows_addTemps _ 1)
  | getLocal | yield => exact d.grows_addTemps 1
  | _ => exact .refl d

theorem Draft.functions_after (d : Draft) (op : Op) : (d.after op).functions = d.functions := by
  cases op <;> rfl

/-- All functions of a unit in the making have the property. -/
def Draft.Each (P : Function → Prop) (d : Draft) : Prop := ∀ f ∈ d.functions, P f

section

variable {P : Function → Prop} {d d' : Draft}

theorem Draft.Each.of_functions_eq (h : d.Each P) (heq : d'.functions = d.functions) :
    d'.Each P := by
  unfold Draft.Each
  rw [heq]
  exact h

theorem Draft.Each.addFunction (h : d.Each P) {f : Function} (hf : P f) :
    (d.addFunction f).Each P := by
  intro g hg
  rcases List.mem_append.mp hg with hg | hg
  · exact h g hg
  · exact List.mem_singleton.mp hg ▸ hf

end

/-! ## Derivations -/

/-- The segment makes the region `r'` of `r` and the unit `d'` of `d`. -/
inductive Generates (t : ScopeTree) (link : Linking) :
    Segment → Region → Draft → Region → Draft → Prop
  | nil (start : Nat) (r : Region) (d : Draft) : Generates t link ⟨start, []⟩ r d r d
  | plain {start : Nat} {i : Instruction} {rest : List Instruction} {r r₁ r' : Region}
      {d d' : Draft} (ha : Acts t link d i r r₁)
      (hr : Generates t link ⟨start + 1, rest⟩ r₁ (d.after i.op) r' d') :
      Generates t link ⟨start, i :: rest⟩ r d r' d'
  | cond {start : Nat} {i : Instruction} {rest : List Instruction} {yes mid no after : Segment}
      {r yesArm noArm r' : Region} {d d₁ d₂ d' : Draft} {v : Operand} {below : List Operand}
      (hi : i.op = .ifTrue)
      (hcut : Segment.takeBlock ⟨start + 1, rest⟩ .orElse none = .ok (yes, mid))
      (hcut' : mid.takeBlock .ending (some .cond) = .ok (no, after)) (hs : r.stack = v :: below)
      (hy : Generates t link yes { stack := below } d yesArm d₁)
      (hn : Generates t link no { stack := below } d₁ noArm d₂)
      (hr : Generates t link after ({ r with stack := below }.joined v d₂.nextTemp yesArm noArm)
        (d₂.addTemps (live below yesArm noArm)) r' d') :
      Generates t link ⟨start, i :: rest⟩ r d r' d'
  | loop {start : Nat} {i : Instruction} {rest : List Instruction} {test mid body after : Segment}
      {r testPart bodyPart r' : Region} {d d₁ d₂ d' : Draft} {v : Operand} {below : List Operand}
      (hi : i.op = .whileTrue)
      (hcut : Segment.takeBlock ⟨start + 1, rest⟩ .loopBody none = .ok (test, mid))
      (hcut' : mid.takeBlock .ending (some .loop) = .ok (body, after))
      (ht : Generates t link test { stack := r.stack } d testPart d₁)
      (hs : testPart.stack = v :: below)
      (hb : Generates t link body { stack := r.stack } d₁ bodyPart d₂)
      (hr : Generates t link after (r.emit (.loop testPart.statements v bodyPart.statements)) d₂
        r' d') :
      Generates t link ⟨start, i :: rest⟩ r d r' d'
  | method {start : Nat} {i : Instruction} {rest : List Instruction} {body after : Segment}
      {r inner r' : Region} {d d₁ d' : Draft} {v : Operand} {below : List Operand} {owned : Scope}
      {name : String} {s : ScopeId} {ref : Ref} (hi : i.op = .defineMethod name s)
      (hcut : Segment.takeBlock ⟨start + 1, rest⟩ .ending (some .method) = .ok (body, after))
      (hb : Generates t link body {} d.addNumber inner d₁) (hs : inner.stack = v :: below)
      (hget : t.get? s = some owned) (hname : link.symbol d₁ name ref)
      (hf : link.function (inner.toFunction (.method d.nextFunction name) s owned v))
      (hr : Generates t link after
        ((r.emit (.defineMethod ref (.method d.nextFunction name))).push (.literal (.sym ref)))
        ((d₁.addSymbol name).addFunction
          (inner.toFunction (.method d.nextFunction name) s owned v)) r' d') :
      Generates t link ⟨start, i :: rest⟩ r d r' d'
  | block {start : Nat} {i : Instruction} {rest : List Instruction} {body after : Segment}
      {r inner r' : Region} {d d₁ d' : Draft} {v : Operand} {below : List Operand} {owned : Scope}
      {s : ScopeId} (hi : i.op = .defineBlock s)
      (hcut : Segment.takeBlock ⟨start + 1, rest⟩ .ending (some .block) = .ok (body, after))
      (hb : Generates t link body {} d.addNumber inner d₁) (hs : inner.stack = v :: below)
      (hget : t.get? s = some owned)
      (hf : link.function (inner.toFunction (.block d.nextFunction) s owned v))
      (hr : Generates t link after (r.memoize d₁.nextTemp (.closure (.block d.nextFunction)))
        ((d₁.addFunction (inner.toFunction (.block d.nextFunction) s owned v)).addTemps 1) r' d') :
      Generates t link ⟨start, i :: rest⟩ r d r' d'

section

variable {t : ScopeTree} {link : Linking} {seg : Segment} {r r' : Region} {d d' : Draft}

/-- **A unit in the making only grows.** -/
theorem Generates.grows (h : Generates t link seg r d r' d') : d.Grows d' := by
  induction h with
  | nil _ _ d => exact .refl d
  | plain _ _ ih => exact (Draft.grows_after _ _).trans ih
  | cond _ _ _ _ _ _ _ ihy ihn ihr =>
    exact ihy.trans (ihn.trans ((Draft.grows_addTemps _ _).trans ihr))
  | loop _ _ _ _ _ _ _ iht ihb ihr => exact iht.trans (ihb.trans ihr)
  | method _ _ _ _ _ _ _ _ ihb ihr =>
    exact ((ihb.trans (Draft.grows_addSymbol _ _)).addFunction rfl).trans ihr
  | block _ _ _ _ _ _ _ ihb ihr =>
    exact (ihb.addFunction rfl).trans ((Draft.grows_addTemps _ _).trans ihr)

/-! ## Every success has a derivation -/

/-- A generator that succeeds succeeded in both its parts. -/
theorem gen_bind_eq_ok {α β : Type} {x : Gen α} {f : α → Gen β} {b : β}
    (h : (x >>= f) d = .ok (b, d')) : ∃ a d₁, x d = .ok (a, d₁) ∧ f a d₁ = .ok (b, d') := by
  obtain ⟨⟨a, d₁⟩, hx, hf⟩ := bind_eq_ok (x := x d) (f := fun p => f p.1 p.2) h
  exact ⟨a, d₁, hx, hf⟩

theorem lift_eq_ok {α : Type} {x : Except Malformed α} {a : α} (h : lift x d = .ok (a, d')) :
    x = .ok a ∧ d' = d := by
  cases x with
  | error e => cases h
  | ok b =>
    cases h
    exact ⟨rfl, rfl⟩

theorem Region.pop_eq_ok {index : Nat} {v : Operand} (h : r.pop index = .ok (v, r')) :
    ∃ below, r.stack = v :: below ∧ r' = { r with stack := below } := by
  cases hs : r.stack with
  | nil =>
    unfold Region.pop at h
    rw [hs] at h
    cases h
  | cons w below =>
    rw [pop_of_stack hs] at h
    cases h
    exact ⟨below, rfl, rfl⟩

/-- What was lifted succeeded, and the rest went on with it. -/
theorem lift_bind_eq_ok {α β : Type} {x : Except Malformed α} {f : α → Gen β} {b : β}
    (h : (lift x >>= f) d = .ok (b, d')) : ∃ a, x = .ok a ∧ f a d = .ok (b, d') := by
  obtain ⟨a, d₁, hlift, hf⟩ := gen_bind_eq_ok h
  obtain ⟨hx, rfl⟩ := lift_eq_ok hlift
  exact ⟨a, hx, hf⟩

theorem pop_bind_eq_ok {β : Type} {index : Nat} {f : Operand × Region → Gen β} {b : β}
    (h : (lift (r.pop index) >>= f) d = .ok (b, d')) :
    ∃ v below, r.stack = v :: below ∧ f (v, { r with stack := below }) d = .ok (b, d') := by
  obtain ⟨⟨v, r₁⟩, hpop, hf⟩ := lift_bind_eq_ok h
  obtain ⟨below, hs, rfl⟩ := Region.pop_eq_ok hpop
  exact ⟨v, below, hs, hf⟩

theorem Region.peek_eq_ok {index : Nat} {v : Operand} (h : r.peek index = .ok v) :
    ∃ below, r.stack = v :: below := by
  cases hs : r.stack with
  | nil =>
    unfold Region.peek at h
    rw [hs] at h
    cases h
  | cons w below =>
    rw [peek_of_stack hs] at h
    cases h
    exact ⟨below, rfl⟩

/-- Operands that were popped together lay on top of each other. -/
theorem Region.popN_eq_ok {n index : Nat} {args : List Operand}
    (h : r.popN n index = .ok (args, r')) : ∃ below, args.length = n ∧
      r.stack = args.reverse ++ below ∧ r' = { r with stack := below } := by
  by_cases hn : n ≤ r.stack.length
  · obtain ⟨args', below, hlength, hs⟩ := exists_args hn
    rw [popN_of_stack hs hlength] at h
    cases h
    exact ⟨below, hlength, hs, rfl⟩
  · unfold Region.popN at h
    rw [if_pos (Nat.lt_of_not_le hn)] at h
    cases h

/-- An index is only for messages. -/
theorem Region.discard_eq_ok {index : Nat} (h : r.discard index = .ok r') :
    ∀ index, r.discard index = .ok r' := by
  cases hs : r.stack with
  | nil =>
    unfold Region.discard Region.pop at h
    rw [hs] at h
    cases h
  | cons v below =>
    obtain ⟨r₁, hr, -⟩ := Region.exists_discard hs
    rw [hr] at h
    cases h
    exact hr

/-- A place in C is where the search in the text leads. -/
theorem storage_eq_ok {s : ScopeId} {name : String} {localOnly : Bool} {place : Storage}
    (h : storage t s name localOnly d = .ok (place, d')) :
    ∃ found, t.resolve? s name localOnly = some (.ok found) ∧
      place = .local found.depth found.slot name ∧ d' = d := by
  unfold storage at h
  rcases hfound : t.resolve? s name localOnly with _ | e | found
  · rw [hfound] at h
    cases h
  · rw [hfound] at h
    cases h
  · rw [hfound] at h
    cases h
    exact ⟨found, rfl, rfl, rfl⟩

/-- The block of a message, or its receiver, when there is one. -/
theorem popOptional_eq_ok {wanted : Bool} {index : Nat} {o : Option Operand} (h : (do
      if wanted then
        let (v, r) ← lift (r.pop index)
        return (some v, r)
      else return (none, r) : Gen (Option Operand × Region)) d = .ok ((o, r'), d')) :
    ∃ below, o.isSome = wanted ∧ r.stack = o.toList ++ below ∧
      r' = { r with stack := below } ∧ d' = d := by
  cases wanted with
  | false =>
    cases h
    exact ⟨r.stack, rfl, rfl, rfl, rfl⟩
  | true =>
    obtain ⟨v, below, hs, hreturn⟩ := pop_bind_eq_ok h
    cases hreturn
    exact ⟨below, rfl, hs, rfl, rfl⟩

variable {run : Segment → Region → Gen Region} {i : Instruction} {after : Segment}

/-- **What an instruction that opens no block becomes.** -/
theorem acts_of_step (hopens : i.op.opens? = none)
    (h : step t run i seg r d = .ok ((r', after), d')) :
    Acts t .making d i r r' ∧ after = seg ∧ d' = d.after i.op := by
  obtain ⟨op, scope⟩ := i
  cases op with
  | ifTrue | whileTrue | defineMethod | defineBlock => cases hopens
  | orElse | loopBody | endBlock => cases h
  | pushInt n =>
    cases h
    exact ⟨.constant (.int n), rfl, rfl⟩
  | pushString s =>
    cases h
    exact ⟨.constant (.string rfl), rfl, rfl⟩
  | pushSymbol s =>
    cases h
    exact ⟨.constant (.symbol rfl), rfl, rfl⟩
  | pushNil =>
    cases h
    exact ⟨.constant .nil, rfl, rfl⟩
  | pushTrue =>
    cases h
    exact ⟨.constant .yes, rfl, rfl⟩
  | pushFalse =>
    cases h
    exact ⟨.constant .no, rfl, rfl⟩
  | pushSelf =>
    cases h
    exact ⟨.constant .self, rfl, rfl⟩
  | pushArg n =>
    cases h
    exact ⟨.constant (.arg n), rfl, rfl⟩
  | pop =>
    obtain ⟨r₁, hdiscard, hreturn⟩ := lift_bind_eq_ok h
    cases hreturn
    exact ⟨.pop rfl (Region.discard_eq_ok hdiscard), rfl, rfl⟩
  | dup =>
    obtain ⟨v, hpeek, hreturn⟩ := lift_bind_eq_ok h
    cases hreturn
    obtain ⟨below, hs⟩ := Region.peek_eq_ok hpeek
    exact ⟨.dup rfl hs, rfl, rfl⟩
  | getLocal name =>
    obtain ⟨place, d₁, hstorage, hreturn⟩ := gen_bind_eq_ok h
    obtain ⟨found, hfound, rfl, rfl⟩ := storage_eq_ok hstorage
    cases hreturn
    exact ⟨.compute (.getLocal rfl hfound), rfl, rfl⟩
  | setLocal name localOnly =>
    obtain ⟨v, below, hs, h₁⟩ := pop_bind_eq_ok h
    obtain ⟨place, d₂, hstorage, hreturn⟩ := gen_bind_eq_ok h₁
    obtain ⟨found, hfound, rfl, rfl⟩ := storage_eq_ok hstorage
    cases hreturn
    exact ⟨.execute (.setLocal rfl hs hfound), rfl, rfl⟩
  | getGlobal name =>
    cases h
    exact ⟨.compute (.getGlobal rfl rfl), rfl, rfl⟩
  | setGlobal name =>
    obtain ⟨v, below, hs, hreturn⟩ := pop_bind_eq_ok h
    cases hreturn
    exact ⟨.execute (.setGlobal rfl hs rfl), rfl, rfl⟩
  | checkArgs expected =>
    cases h
    exact ⟨.execute (.checkArgs rfl), rfl, rfl⟩
  | send message argc receiver withBlock =>
    obtain ⟨⟨block, r₁⟩, d₁, hblock, h₁⟩ := gen_bind_eq_ok h
    obtain ⟨below, rfl, hs, rfl, rfl⟩ := popOptional_eq_ok hblock
    obtain ⟨⟨args, r₂⟩, hargs, h₂⟩ := lift_bind_eq_ok h₁
    obtain ⟨below₁, hlength, hs₁, rfl⟩ := Region.popN_eq_ok hargs
    obtain ⟨⟨target, r₃⟩, d₃, htarget, hreturn⟩ := gen_bind_eq_ok h₂
    obtain ⟨below₂, rfl, hs₂, rfl, rfl⟩ := popOptional_eq_ok htarget
    cases hreturn
    obtain rfl : below = args.reverse ++ below₁ := hs₁
    obtain rfl : below₁ = target.toList ++ below₂ := hs₂
    exact ⟨.compute (.send rfl hlength hs rfl), rfl, rfl⟩
  | yield argc =>
    obtain ⟨⟨args, r₁⟩, hargs, hreturn⟩ := lift_bind_eq_ok h
    obtain ⟨below, hlength, hs, rfl⟩ := Region.popN_eq_ok hargs
    cases hreturn
    exact ⟨.compute (.yield rfl hlength hs), rfl, rfl⟩
  | ret =>
    obtain ⟨v, below, hs, hreturn⟩ := pop_bind_eq_ok h
    cases hreturn
    exact ⟨.execute (.leave (.inl rfl) hs), rfl, rfl⟩
  | breakOut =>
    cases h
    exact ⟨.execute (.breakOut rfl), rfl, rfl⟩
  | next withValue =>
    cases withValue with
    | false =>
      cases h
      exact ⟨.execute (.nextRound rfl), rfl, rfl⟩
    | true =>
      obtain ⟨v, below, hs, hreturn⟩ := pop_bind_eq_ok h
      cases hreturn
      exact ⟨.execute (.leave (.inr rfl) hs), rfl, rfl⟩
  | halt =>
    cases h
    exact ⟨.execute (.halt rfl), rfl, rfl⟩
  | setVisibility v =>
    cases h
    exact ⟨.execute (.setVisibility rfl), rfl, rfl⟩

/-- A function is made of a body that starts with an empty region. -/
theorem function_eq_ok {name : FunctionName} {s : ScopeId} {f : Function}
    (h : function t run name s seg d = .ok (f, d')) :
    ∃ inner owned, run seg {} d = .ok (inner, d') ∧ t.get? s = some owned ∧
      f = inner.toFunction name s owned inner.result ∧ (name ≠ .main → inner.stack ≠ []) := by
  obtain ⟨inner, d₁, hrun, h₁⟩ := gen_bind_eq_ok h
  cases hget : t.get? s with
  | none =>
    cases hs : inner.stack with
    | cons v below =>
      simp only [hs, hget] at h₁
      cases h₁
    | nil =>
      simp only [hs, hget] at h₁
      cases name <;> cases h₁
  | some owned =>
    cases hs : inner.stack with
    | cons v below =>
      rw [function_ok name hrun hs hget] at h
      cases h
      refine ⟨inner, owned, hrun, rfl, by rw [Region.result, hs]; rfl, fun _ => ?_⟩
      exact hs ▸ List.cons_ne_nil v below
    | nil =>
      cases name with
      | main =>
        rw [function_main hrun hget] at h
        cases h
        exact ⟨inner, owned, hrun, rfl, rfl, fun hne => absurd rfl hne⟩
      | method | block =>
        simp only [hs] at h₁
        cases h₁

/-- A conditional that became C was cut into two branches, and both became C. -/
theorem step_cond_eq_ok (hi : i.op = .ifTrue) (h : step t run i seg r d = .ok ((r', after), d')) :
    ∃ v below yes mid no yesArm noArm d₁ d₂, r.stack = v :: below ∧
      seg.takeBlock .orElse none = .ok (yes, mid) ∧
      mid.takeBlock .ending (some .cond) = .ok (no, after) ∧
      run yes { stack := below } d = .ok (yesArm, d₁) ∧
      run no { stack := below } d₁ = .ok (noArm, d₂) ∧
      r' = { r with stack := below }.joined v d₂.nextTemp yesArm noArm ∧
      d' = d₂.addTemps (live below yesArm noArm) := by
  -- the parts are read off one copy; with them the other one is an equation between results
  have h₀ := h
  unfold step at h₀
  rw [hi] at h₀
  obtain ⟨v, below, hs, h₁⟩ := pop_bind_eq_ok h₀
  obtain ⟨⟨yes, mid⟩, hcut, h₂⟩ := lift_bind_eq_ok h₁
  obtain ⟨⟨no, after'⟩, hcut', h₃⟩ := lift_bind_eq_ok h₂
  obtain ⟨yesArm, d₄, hyes, h₄⟩ := gen_bind_eq_ok h₃
  obtain ⟨noArm, d₅, hno, -⟩ := gen_bind_eq_ok h₄
  rw [step_cond hi hs hcut hcut' hyes hno] at h
  cases h
  exact ⟨v, below, yes, mid, no, yesArm, noArm, _, _, hs, hcut, hcut', hyes, hno, rfl, rfl⟩

/-- A loop that became C was cut into test and body, and both became C. -/
theorem step_loop_eq_ok (hi : i.op = .whileTrue)
    (h : step t run i seg r d = .ok ((r', after), d')) :
    ∃ test mid body testPart bodyPart v below d₁, seg.takeBlock .loopBody none = .ok (test, mid) ∧
      mid.takeBlock .ending (some .loop) = .ok (body, after) ∧
      run test { stack := r.stack } d = .ok (testPart, d₁) ∧ testPart.stack = v :: below ∧
      run body { stack := r.stack } d₁ = .ok (bodyPart, d') ∧
      r' = r.emit (.loop testPart.statements v bodyPart.statements) := by
  have h₀ := h
  unfold step at h₀
  rw [hi] at h₀
  obtain ⟨⟨test, mid⟩, hcut, h₁⟩ := lift_bind_eq_ok h₀
  obtain ⟨⟨body, after'⟩, hcut', h₂⟩ := lift_bind_eq_ok h₁
  obtain ⟨testPart, d₃, htest, h₃⟩ := gen_bind_eq_ok h₂
  obtain ⟨v, below, hs, h₄⟩ := pop_bind_eq_ok h₃
  obtain ⟨bodyPart, d₅, hbody, -⟩ := gen_bind_eq_ok h₄
  rw [step_loop hi hcut hcut' htest hs hbody] at h
  cases h
  exact ⟨test, mid, body, testPart, bodyPart, v, below, _, hcut, hcut', htest, hs, hbody, rfl⟩

/-- A method definition that became C has a function for its body. -/
theorem step_method_eq_ok {name : String} {s : ScopeId} (hi : i.op = .defineMethod name s)
    (h : step t run i seg r d = .ok ((r', after), d')) :
    ∃ body inner v below owned d₁, seg.takeBlock .ending (some .method) = .ok (body, after) ∧
      run body {} d.addNumber = .ok (inner, d₁) ∧ inner.stack = v :: below ∧
      t.get? s = some owned ∧
      r' = (r.emit (.defineMethod (d₁.symbolRef name) (.method d.nextFunction name))).push
        (.literal (.sym (d₁.symbolRef name))) ∧
      d' = (d₁.addSymbol name).addFunction
        (inner.toFunction (.method d.nextFunction name) s owned v) := by
  have h₀ := h
  unfold step at h₀
  rw [hi] at h₀
  obtain ⟨⟨body, after'⟩, hcut, h₁⟩ := lift_bind_eq_ok h₀
  obtain ⟨number, d₂, hnumber, h₂⟩ := gen_bind_eq_ok h₁
  cases hnumber
  obtain ⟨f, d₃, hfunction, -⟩ := gen_bind_eq_ok h₂
  obtain ⟨inner, owned, hbody, hget, -, hne⟩ := function_eq_ok hfunction
  obtain ⟨v, below, hs⟩ := List.exists_cons_of_ne_nil (hne nofun)
  rw [step_method hi hcut hbody hs hget] at h
  cases h
  exact ⟨body, inner, v, below, owned, _, hcut, hbody, hs, hget, rfl, rfl⟩

theorem step_block_eq_ok {s : ScopeId} (hi : i.op = .defineBlock s)
    (h : step t run i seg r d = .ok ((r', after), d')) :
    ∃ body inner v below owned d₁, seg.takeBlock .ending (some .block) = .ok (body, after) ∧
      run body {} d.addNumber = .ok (inner, d₁) ∧ inner.stack = v :: below ∧
      t.get? s = some owned ∧ r' = r.memoize d₁.nextTemp (.closure (.block d.nextFunction)) ∧
      d' = (d₁.addFunction (inner.toFunction (.block d.nextFunction) s owned v)).addTemps 1 := by
  have h₀ := h
  unfold step at h₀
  rw [hi] at h₀
  obtain ⟨⟨body, after'⟩, hcut, h₁⟩ := lift_bind_eq_ok h₀
  obtain ⟨number, d₂, hnumber, h₂⟩ := gen_bind_eq_ok h₁
  cases hnumber
  obtain ⟨f, d₃, hfunction, -⟩ := gen_bind_eq_ok h₂
  obtain ⟨inner, owned, hbody, hget, -, hne⟩ := function_eq_ok hfunction
  obtain ⟨v, below, hs⟩ := List.exists_cons_of_ne_nil (hne nofun)
  rw [step_block hi hcut hbody hs hget] at h
  cases h
  exact ⟨body, inner, v, below, owned, _, hcut, hbody, hs, hget, rfl, rfl⟩

/-- **Whenever the generator succeeds there is a derivation.** -/
theorem generates_of_generateWithin {n : Nat} (hn : seg.code.length ≤ n)
    (h : generateWithin t n seg r d = .ok (r', d')) : Generates t .making seg r d r' d' := by
  induction n generalizing seg r d r' d' with
  | zero =>
    obtain ⟨start, code⟩ := seg
    obtain rfl : code = [] := List.length_eq_zero_iff.mp (Nat.le_zero.mp hn)
    cases h
    exact .nil _ _ _
  | succ n ih =>
    obtain ⟨start, code⟩ := seg
    cases code with
    | nil =>
      cases h
      exact .nil _ _ _
    | cons i rest =>
      obtain ⟨⟨r₁, after⟩, d₁, hstep, hrest⟩ := gen_bind_eq_ok h
      have hrest : generateWithin t n after r₁ d₁ = .ok (r', d') := hrest
      rw [List.length_cons] at hn
      by_cases hopens : i.op.opens? = none
      · obtain ⟨hacts, rfl, rfl⟩ := acts_of_step hopens hstep
        exact .plain hacts (ih (by exact Nat.le_of_succ_le_succ hn) hrest)
      · cases hi : i.op with
        | ifTrue =>
          obtain ⟨v, below, yes, mid, no, yesArm, noArm, d₂, d₃, hs, hcut, hcut', hyes, hno, rfl,
            rfl⟩ := step_cond_eq_ok hi hstep
          have hmid := Segment.length_of_takeBlock hcut
          have hafter := Segment.length_of_takeBlock hcut'
          exact .cond hi hcut hcut' hs (ih (by omega) hyes) (ih (by omega) hno)
            (ih (by omega) hrest)
        | whileTrue =>
          obtain ⟨test, mid, body, testPart, bodyPart, v, below, d₂, hcut, hcut', htest, hs, hbody,
            rfl⟩ := step_loop_eq_ok hi hstep
          have hmid := Segment.length_of_takeBlock hcut
          have hafter := Segment.length_of_takeBlock hcut'
          exact .loop hi hcut hcut' (ih (by omega) htest) hs (ih (by omega) hbody)
            (ih (by omega) hrest)
        | defineMethod name s =>
          obtain ⟨body, inner, v, below, owned, d₂, hcut, hbody, hs, hget, rfl, rfl⟩ :=
            step_method_eq_ok hi hstep
          have hafter := Segment.length_of_takeBlock hcut
          exact .method hi hcut (ih (by omega) hbody) hs hget rfl trivial (ih (by omega) hrest)
        | defineBlock s =>
          obtain ⟨body, inner, v, below, owned, d₂, hcut, hbody, hs, hget, rfl, rfl⟩ :=
            step_block_eq_ok hi hstep
          have hafter := Segment.length_of_takeBlock hcut
          exact .block hi hcut (ih (by omega) hbody) hs hget trivial (ih (by omega) hrest)
        | _ =>
          rw [hi] at hopens
          exact absurd rfl hopens

/-- **Every unit is made of all of its program**, and has a derivation. -/
theorem exists_generates {settings : Settings} {p : Program} {u : CUnit}
    (h : generate settings p = .ok u) :
    ∃ r d owned, Generates p.scopes .making p.segment {} {} r d ∧
      p.scopes.get? .root = some owned ∧
      u = d.toUnit settings (r.toFunction .main .root owned r.result) := by
  obtain ⟨⟨main, d⟩, hmain, hunit⟩ := bind_eq_ok h
  obtain ⟨r, owned, hrun, hget, rfl, -⟩ := function_eq_ok hmain
  cases hunit
  exact ⟨r, d, owned, generates_of_generateWithin (Nat.le_refl _) hrun, hget, rfl⟩

end

end StackCode.CUnit
