import StackCode.CUnit.Generate
import StackCode.Proofs.Compile
import StackCode.Proofs.UnitMeaning

/-!
# How single instructions become C

A unit in the making only grows: what a statement refers to by number is still there when the unit
is finished (`Draft.Grows`, `Draft.Within`). An instruction that finds its operands, and a variable
of the name that it gives, always becomes C (`exists_step_of_found`). It takes as many symbolic
operands from the region as it takes operands from the machine's stack, and leaves as many
(`Advances`).
-/

namespace StackCode.CUnit

/-! ## Numbered texts -/

namespace Interned

/-- A text is added to the table if it is not in it yet. -/
theorem entries_intern (table : Interned) (s : String) :
    (table.intern s).1.entries = table.entries ∨
      s ∉ table.entries ∧ (table.intern s).1.entries = table.entries ++ [s] := by
  cases h : table.get? s with
  | some i =>
    rw [intern_of_some h]
    exact .inl rfl
  | none =>
    rw [intern_of_none h]
    exact .inr ⟨get?_eq_none_iff.mp h, rfl⟩

/-- A text stands at the number that it was given. -/
theorem getElem?_intern (table : Interned) (s : String) :
    (table.intern s).1.entries[(table.intern s).2]? = some s := by
  cases h : table.get? s with
  | some i =>
    rw [intern_of_some h]
    exact (table.numbered s i).mp h
  | none =>
    rw [intern_of_none h]
    exact List.getElem?_concat_length

theorem isPrefix_intern (table : Interned) (s : String) :
    table.entries <+: (table.intern s).1.entries := by
  rcases entries_intern table s with h | ⟨-, h⟩
  · exact h ▸ List.prefix_refl _
  · exact h ▸ List.prefix_append _ _

/-- No text is listed twice. -/
theorem nodup_intern {table : Interned} (h : table.entries.Nodup) (s : String) :
    (table.intern s).1.entries.Nodup := by
  rcases entries_intern table s with heq | ⟨hs, heq⟩
  · rw [heq]
    exact h
  · rw [heq, List.nodup_append]
    refine ⟨h, by simp, fun a ha b hb => ?_⟩
    rw [List.mem_singleton.mp hb]
    exact fun hab => hs (hab ▸ ha)

end Interned

/-! ## Units in the making -/

/-- The number of a method or block. -/
def FunctionName.number : FunctionName → Nat
  | main => 0
  | method number _ => number
  | block number => number

namespace Draft

/-- The unit when a symbol has been referred to. -/
def addSymbol (d : Draft) (s : String) : Draft := { d with symbols := (d.symbols.intern s).1 }

/-- The reference to a symbol. -/
def symbolRef (d : Draft) (s : String) : Ref := ⟨(d.symbols.intern s).2, s⟩

/-- The unit when a string has been referred to. -/
def addString (d : Draft) (s : String) : Draft := { d with strings := (d.strings.intern s).1 }

/-- The reference to a string. -/
def stringRef (d : Draft) (s : String) : Ref := ⟨(d.strings.intern s).2, s⟩

/-- The unit when `n` temps have been taken. -/
def addTemps (d : Draft) (n : Nat) : Draft := { d with nextTemp := d.nextTemp + n }

/-- The unit when a number for a function has been taken. -/
def addNumber (d : Draft) : Draft := { d with nextFunction := d.nextFunction + 1 }

/-- The unit with one more function. -/
def addFunction (d : Draft) (f : Function) : Draft := { d with functions := d.functions ++ [f] }

/-- Nothing that was there is lost, and the functions that were added have numbers of their own. -/
structure Grows (d d' : Draft) : Prop where
  symbols : d.symbols.entries <+: d'.symbols.entries
  distinct : d.symbols.entries.Nodup → d'.symbols.entries.Nodup
  strings : d.strings.entries <+: d'.strings.entries
  temps : d.nextTemp ≤ d'.nextTemp
  numbers : d.nextFunction ≤ d'.nextFunction
  functions : ∃ more, d'.functions = d.functions ++ more ∧
    (∀ f ∈ more, d.nextFunction ≤ f.name.number ∧ f.name.number < d'.nextFunction) ∧
    (more.map (·.name.number)).Nodup

variable {d d' d'' : Draft}

/-- A change that adds no function. -/
theorem grows_of_functions_eq (hsymbols : d.symbols.entries <+: d'.symbols.entries)
    (hdistinct : d.symbols.entries.Nodup → d'.symbols.entries.Nodup)
    (hstrings : d.strings.entries <+: d'.strings.entries) (htemps : d.nextTemp ≤ d'.nextTemp)
    (hnumbers : d.nextFunction ≤ d'.nextFunction) (hfunctions : d'.functions = d.functions) :
    d.Grows d' :=
  ⟨hsymbols, hdistinct, hstrings, htemps, hnumbers,
    [], by rw [List.append_nil, hfunctions], by simp, List.nodup_nil⟩

theorem Grows.refl (d : Draft) : d.Grows d :=
  grows_of_functions_eq (List.prefix_refl _) id (List.prefix_refl _) (Nat.le_refl _)
    (Nat.le_refl _) rfl

theorem Grows.trans (h : d.Grows d') (h' : d'.Grows d'') : d.Grows d'' where
  symbols := h.symbols.trans h'.symbols
  distinct := fun hd => h'.distinct (h.distinct hd)
  strings := h.strings.trans h'.strings
  temps := Nat.le_trans h.temps h'.temps
  numbers := Nat.le_trans h.numbers h'.numbers
  functions := by
    obtain ⟨more, heq, hrange, hnodup⟩ := h.functions
    obtain ⟨more', heq', hrange', hnodup'⟩ := h'.functions
    have hle := h.numbers
    have hle' := h'.numbers
    refine ⟨more ++ more', by rw [heq', heq, List.append_assoc], fun f hf => ?_, ?_⟩
    · rcases List.mem_append.mp hf with hf | hf
      · have := hrange f hf
        omega
      · have := hrange' f hf
        omega
    · rw [List.map_append, List.nodup_append]
      refine ⟨hnodup, hnodup', fun a ha b hb => ?_⟩
      obtain ⟨f, hf, rfl⟩ := List.mem_map.mp ha
      obtain ⟨g, hg, rfl⟩ := List.mem_map.mp hb
      have := hrange f hf
      have := hrange' g hg
      omega

theorem grows_addSymbol (d : Draft) (s : String) : d.Grows (d.addSymbol s) :=
  grows_of_functions_eq (Interned.isPrefix_intern _ s) (fun h => Interned.nodup_intern h s)
    (List.prefix_refl _) (Nat.le_refl _) (Nat.le_refl _) rfl

theorem grows_addString (d : Draft) (s : String) : d.Grows (d.addString s) :=
  grows_of_functions_eq (List.prefix_refl _) id (Interned.isPrefix_intern _ s) (Nat.le_refl _)
    (Nat.le_refl _) rfl

theorem grows_addTemps (d : Draft) (n : Nat) : d.Grows (d.addTemps n) :=
  grows_of_functions_eq (List.prefix_refl _) id (List.prefix_refl _) (Nat.le_add_right _ _)
    (Nat.le_refl _) rfl

/-- A function gets its number before those that stand inside of it. -/
theorem Grows.addFunction (h : d.addNumber.Grows d') {f : Function}
    (hf : f.name.number = d.nextFunction) : d.Grows (d'.addFunction f) := by
  obtain ⟨more, heq, hrange, hnodup⟩ := h.functions
  have hnext : d.nextFunction + 1 ≤ d'.nextFunction := h.numbers
  refine ⟨h.symbols, h.distinct, h.strings, h.temps, Nat.le_of_succ_le hnext, more ++ [f], ?_,
    fun g hg => ?_, ?_⟩
  · show d'.functions ++ [f] = d.functions ++ (more ++ [f])
    rw [heq, List.append_assoc]
    rfl
  · rcases List.mem_append.mp hg with hg | hg
    · have : d.nextFunction + 1 ≤ g.name.number ∧ g.name.number < d'.nextFunction := hrange g hg
      exact ⟨Nat.le_of_succ_le this.1, this.2⟩
    · rw [List.mem_singleton.mp hg, hf]
      exact ⟨Nat.le_refl _, hnext⟩
  · rw [List.map_append, List.nodup_append]
    refine ⟨hnodup, by simp, fun a ha b hb => ?_⟩
    obtain ⟨g, hg, rfl⟩ := List.mem_map.mp ha
    have : d.nextFunction + 1 ≤ g.name.number := (hrange g hg).1
    have : b = f.name.number := List.mem_singleton.mp hb
    omega

/-- What has been made so far is part of a finished unit. -/
structure Within (d : Draft) (u : CUnit) : Prop where
  symbols : d.symbols.entries <+: u.symbols
  strings : d.strings.entries <+: u.strings
  functions : ∀ f ∈ d.functions, u.function? f.name = some f

variable {u : CUnit}

/-- What is part of a finished unit was so at every earlier stage. -/
theorem Grows.within (h : d.Grows d') (hu : d'.Within u) : d.Within u where
  symbols := h.symbols.trans hu.symbols
  strings := h.strings.trans hu.strings
  functions := by
    intro f hf
    obtain ⟨more, heq, -⟩ := h.functions
    exact hu.functions f (heq ▸ List.mem_append_left more hf)

theorem getElem?_of_isPrefix {l l' : List String} (h : l <+: l') {k : Nat} {s : String}
    (hk : l[k]? = some s) : l'[k]? = some s := by
  obtain ⟨more, rfl⟩ := h
  obtain ⟨hlt, rfl⟩ := List.getElem?_eq_some_iff.mp hk
  rw [List.getElem?_append_left hlt]
  exact List.getElem?_eq_getElem hlt

/-- The number of a symbol in the finished unit. -/
theorem Within.symbolRef (s : String) (hu : (d.addSymbol s).Within u) :
    u.symbols[(d.symbolRef s).index]? = some s :=
  getElem?_of_isPrefix hu.symbols (Interned.getElem?_intern _ s)

/-- The number of a string in the finished unit. -/
theorem Within.stringRef (s : String) (hu : (d.addString s).Within u) :
    u.strings[(d.stringRef s).index]? = some s :=
  getElem?_of_isPrefix hu.strings (Interned.getElem?_intern _ s)

/-- Functions with different numbers are told apart by their names. -/
theorem find?_of_mem {functions : List Function} (hn : (functions.map (·.name.number)).Nodup)
    {f : Function} (hf : f ∈ functions) : functions.find? (·.name = f.name) = some f := by
  induction functions with
  | nil => cases hf
  | cons g rest ih =>
    rw [List.map_cons, List.nodup_cons] at hn
    rcases List.mem_cons.mp hf with rfl | hf
    · exact List.find?_cons_of_pos (by simp)
    · have hne : g.name ≠ f.name := fun heq =>
        hn.1 (List.mem_map.mpr ⟨f, hf, congrArg FunctionName.number heq.symm⟩)
      rw [List.find?_cons_of_neg (by simp [hne])]
      exact ih hn.2 hf

/-- A unit holds all of the draft that it was made of. -/
theorem within_of_grows (hgrows : Grows {} d) (hsymbols : u.symbols = d.symbols.entries)
    (hstrings : u.strings = d.strings.entries) (hfunctions : u.functions = d.functions) :
    d.Within u where
  symbols := hsymbols ▸ List.prefix_refl _
  strings := hstrings ▸ List.prefix_refl _
  functions := by
    obtain ⟨more, heq, -, hnodup⟩ := hgrows.functions
    rw [List.nil_append] at heq
    intro f hf
    rw [function?, hfunctions, heq]
    exact find?_of_mem hnodup (heq ▸ hf)

end Draft

/-! ## Regions -/

namespace Region

@[simp] theorem statements_emit (r : Region) (s : Stmt) :
    (r.emit s).statements = r.statements ++ [s] :=
  List.reverse_cons

/-- The function that a region becomes, with `v` as its result. -/
def toFunction (r : Region) (name : FunctionName) (scope : ScopeId) (owned : Scope) (v : Operand) :
    Function :=
  { name, scope, envSize := owned.vars.size, body := (r.emit (.ret v)).statements }

variable {r : Region} {v : Operand} {below : List Operand}

theorem pop_of_stack (hs : r.stack = v :: below) (index : Nat) :
    r.pop index = .ok (v, { r with stack := below }) := by
  unfold pop
  rw [hs]

theorem peek_of_stack (hs : r.stack = v :: below) (index : Nat) : r.peek index = .ok v := by
  unfold peek
  rw [hs]

/-- Operands are popped together, in the order in which they were pushed. -/
theorem popN_of_stack {args : List Operand} {n : Nat} (hs : r.stack = args.reverse ++ below)
    (hn : args.length = n) (index : Nat) :
    r.popN n index = .ok (args, { r with stack := below }) := by
  have hrev : args.reverse.length = n := by rw [List.length_reverse, hn]
  have hlt : ¬ r.stack.length < n := by
    rw [hs, List.length_append]
    omega
  unfold popN
  rw [if_neg hlt, hs, List.take_left' hrev, List.drop_left' hrev, List.reverse_reverse]

/-- What becomes of a region whose last operand is forgotten: a declaration that served that operand
alone is replaced by the bare computation. -/
theorem exists_discard (hs : r.stack = v :: below) : ∃ r' : Region,
    (∀ index, r.discard index = .ok r') ∧ r'.stack = below ∧ (r'.code = r.code ∨
      ∃ t value rest, v = .temp t ∧ .temp t ∉ below ∧ r.code = .declare t value :: rest ∧
        r'.code = .eval value :: rest) := by
  have hkeep : ∀ {r' : Region}, r' = { r with stack := below } → r'.stack = below ∧
      (r'.code = r.code ∨ ∃ t value rest, v = .temp t ∧ .temp t ∉ below ∧
        r.code = .declare t value :: rest ∧ r'.code = .eval value :: rest) := by
    rintro _ rfl
    exact ⟨rfl, .inl rfl⟩
  unfold discard
  simp only [pop_of_stack hs, bind, Except.bind]
  split
  · rename_i t t' value rest hcode
    split
    · rename_i hcond
      obtain ⟨rfl, hmem⟩ := hcond
      exact ⟨_, fun _ => rfl, rfl, .inr ⟨t, value, rest, rfl, hmem, hcode, rfl⟩⟩
    · exact ⟨_, fun _ => rfl, hkeep rfl⟩
  · exact ⟨_, fun _ => rfl, hkeep rfl⟩

end Region

/-! ## Single instructions -/

section

variable {t : ScopeTree} {run : Segment → Region → Gen Region} {after : Segment} {r r' : Region}
  {d : Draft} {scope : ScopeId} {v : Operand} {below : List Operand}

theorem lift_ok {α : Type} {x : Except Malformed α} {a : α} (h : x = .ok a) (d : Draft) :
    lift x d = .ok (a, d) := by
  rw [h]
  rfl

theorem gen_bind {α β : Type} {x : Gen α} {f : α → Gen β} {a : α} {d d' : Draft}
    (h : x d = .ok (a, d')) : (x >>= f) d = f a d' := by
  show (x d >>= fun p => f p.1 p.2) = _
  rw [h]
  rfl

/-- The place of a variable is found in the text. -/
theorem storage_of_resolve {name : String} {localOnly : Bool} {found : Resolved}
    (h : t.resolve? scope name localOnly = some (.ok found)) (d : Draft) :
    storage t scope name localOnly d = .ok (.local found.depth found.slot name, d) := by
  unfold storage
  rw [h]
  rfl

theorem step_pop (h : ∀ index, r.discard index = .ok r') :
    step t run ⟨.pop, scope⟩ after r d = .ok ((r', after), d) :=
  gen_bind (lift_ok (h _) d)

theorem step_dup (hs : r.stack = v :: below) :
    step t run ⟨.dup, scope⟩ after r d = .ok ((r.push v, after), d) :=
  gen_bind (lift_ok (Region.peek_of_stack hs _) d)

/-- A variable is read into a new temp. -/
theorem step_getLocal {name : String} {found : Resolved}
    (h : t.resolve? scope name false = some (.ok found)) :
    step t run ⟨.getLocal name, scope⟩ after r d =
      .ok ((r.memoize d.nextTemp (.load (.local found.depth found.slot name)), after),
        d.addTemps 1) :=
  gen_bind (storage_of_resolve h d)

/-- A variable is written where the text says. -/
theorem step_setLocal {name : String} {localOnly : Bool} {found : Resolved}
    (hs : r.stack = v :: below) (h : t.resolve? scope name localOnly = some (.ok found)) :
    step t run ⟨.setLocal name localOnly, scope⟩ after r d =
      .ok (({ r with stack := below }.emit (.store (.local found.depth found.slot name) v),
        after), d) :=
  (gen_bind (lift_ok (Region.pop_of_stack hs _) d)).trans (gen_bind (storage_of_resolve h d))

theorem step_setGlobal (hs : r.stack = v :: below) (name : String) :
    step t run ⟨.setGlobal name, scope⟩ after r d =
      .ok (({ r with stack := below }.emit (.store (.global (d.symbolRef name)) v), after),
        d.addSymbol name) :=
  gen_bind (lift_ok (Region.pop_of_stack hs _) d)

/-- The block of a message, or its receiver, is taken if there is one. -/
theorem popOptional_of_stack {o : Option Operand} (hs : r.stack = o.toList ++ below) (index : Nat)
    (d : Draft) : (do
      if o.isSome then
        let (v, r) ← lift (r.pop index)
        return (some v, r)
      else return (none, r) : Gen (Option Operand × Region)) d =
        .ok ((o, { r with stack := below }), d) := by
  cases o with
  | none =>
    obtain rfl : r.stack = below := hs
    rfl
  | some v => exact gen_bind (lift_ok (Region.pop_of_stack hs _) d)

/-- A call takes its block, its arguments and its receiver. -/
theorem step_send {args : List Operand} {target block : Option Operand} {argc : UInt64}
    (hargs : args.length = argc.toNat)
    (hs : r.stack = block.toList ++ (args.reverse ++ (target.toList ++ below)))
    (message : String) :
    step t run ⟨.send message argc target.isSome block.isSome, scope⟩ after r d =
      .ok (({ r with stack := below }.memoize d.nextTemp
        (.send target (d.symbolRef message) args block), after),
        (d.addSymbol message).addTemps 1) := by
  have hargs' : lift (Region.popN { r with stack := args.reverse ++ (target.toList ++ below) }
      argc.toNat (after.start - 1)) d =
        .ok ((args, { r with stack := target.toList ++ below }), d) :=
    lift_ok (Region.popN_of_stack rfl hargs _) d
  exact (gen_bind (popOptional_of_stack hs _ d)).trans ((gen_bind hargs').trans
    (gen_bind (popOptional_of_stack rfl _ _)))

/-- A yield is computed into a new temp. -/
theorem step_yield {args : List Operand} {argc : UInt64} (hargs : args.length = argc.toNat)
    (hs : r.stack = args.reverse ++ below) :
    step t run ⟨.yield argc, scope⟩ after r d =
      .ok (({ r with stack := below }.memoize d.nextTemp (.yield args), after), d.addTemps 1) :=
  gen_bind (lift_ok (Region.popN_of_stack hs hargs _) d)

/-- A return takes the value on top. -/
theorem step_ret (hs : r.stack = v :: below) :
    step t run ⟨.ret, scope⟩ after r d =
      .ok (({ r with stack := below }.emit (.ret v), after), d) :=
  gen_bind (lift_ok (Region.pop_of_stack hs _) d)

theorem step_finish (hs : r.stack = v :: below) :
    step t run ⟨.next true, scope⟩ after r d =
      .ok (({ r with stack := below }.emit (.ret v), after), d) :=
  gen_bind (lift_ok (Region.pop_of_stack hs _) d)

end

/-- What an instruction that takes `taken` operands and leaves `left` does to a region and a
unit. -/
structure Advances (taken left : Nat) (r : Region) (d : Draft) (r' : Region) (d' : Draft) :
    Prop where
  grows : d.Grows d'
  stack : ∃ new, new.length = left ∧ r'.stack = new ++ r.stack.drop taken ∧
    ∀ n, .temp n ∈ new → n < d'.nextTemp ∨ .temp n ∈ r.stack

section

variable {r : Region} {d e : Draft} {v : Operand} {below : List Operand} {taken : Nat}

theorem advances_literal (a : Atom) (h : d.Grows e) :
    Advances 0 1 r d (r.push (.literal a)) e :=
  ⟨h, [.literal a], rfl, rfl, fun _ hn => nomatch List.mem_singleton.mp hn⟩

/-- A computed value is one operand, a temp that has just been taken. -/
theorem advances_memoize (hs : r.stack.drop taken = below) (value : Rhs) (h : d.Grows e) :
    Advances taken 1 r d ({ r with stack := below }.memoize e.nextTemp value) (e.addTemps 1) := by
  refine ⟨h.trans (e.grows_addTemps 1), [.temp e.nextTemp], rfl, by rw [hs]; rfl, fun n hn => ?_⟩
  cases List.mem_singleton.mp hn
  exact .inl (Nat.lt_succ_self _)

/-- A statement takes its operands and leaves none. -/
theorem advances_emit (hs : r.stack.drop taken = below) (s : Stmt) (h : d.Grows e) :
    Advances taken 0 r d ({ r with stack := below }.emit s) e :=
  ⟨h, [], rfl, hs.symm, fun _ hn => nomatch hn⟩

theorem exists_top {stack : List Operand} (h : 1 ≤ stack.length) :
    ∃ v below, stack = v :: below := by
  cases stack with
  | nil => simp at h
  | cons v below => exact ⟨v, below, rfl⟩

/-- The operands of a call, in the order of the arguments. -/
theorem exists_args {stack : List Operand} {n : Nat} (h : n ≤ stack.length) :
    ∃ args below : List Operand, args.length = n ∧ stack = args.reverse ++ below :=
  ⟨(stack.take n).reverse, stack.drop n, by simp [h], by simp⟩

/-- The operands of a call. -/
theorem exists_operands {stack : List Operand} {n : Nat} (receiver withBlock : Bool)
    (h : receiver.toNat + n + withBlock.toNat ≤ stack.length) :
    ∃ (block target : Option Operand) (args below : List Operand), block.isSome = withBlock ∧
      target.isSome = receiver ∧ args.length = n ∧
      stack = block.toList ++ (args.reverse ++ (target.toList ++ below)) := by
  have hoptional : ∀ (wanted : Bool) (stack : List Operand), wanted.toNat ≤ stack.length →
      ∃ (o : Option Operand) (below : List Operand), o.isSome = wanted ∧
        stack = o.toList ++ below := by
    intro wanted stack h
    cases wanted with
    | false => exact ⟨none, stack, rfl, rfl⟩
    | true =>
      obtain ⟨v, below, rfl⟩ := exists_top h
      exact ⟨some v, below, rfl, rfl⟩
  have hsize : ∀ o : Option Operand, o.toList.length = o.isSome.toNat := by
    intro o
    cases o <;> rfl
  obtain ⟨block, stack, rfl, rfl⟩ := hoptional withBlock stack (by omega)
  rw [List.length_append, hsize] at h
  have hargs : n ≤ stack.length := by omega
  obtain ⟨args, stack, rfl, rfl⟩ := exists_args hargs
  rw [List.length_append, List.length_reverse] at h
  obtain ⟨target, below, rfl, rfl⟩ := hoptional receiver stack (by omega)
  exact ⟨block, target, args, below, rfl, rfl, rfl, rfl⟩

end

/-- The variable that an instruction finds. -/
theorem exists_resolved {t : ScopeTree} {s : ScopeId} {name : String} {localOnly : Bool}
    (h : t.finds s name localOnly = true) :
    ∃ found, t.resolve? s name localOnly = some (.ok found) := by
  unfold ScopeTree.finds at h
  split at h
  · rename_i found hfound
    exact ⟨found, hfound⟩
  · cases h

/-- **An instruction that finds its operands and its variable becomes C.** -/
theorem exists_step_of_found {t : ScopeTree} {i : Instruction} {taken left : Nat}
    (hargs : ∀ message argc receiver withBlock, i.op = .send message argc receiver withBlock →
      argc.toNat < 2 ^ 63)
    (hfound : ∀ name localOnly, i.op.access? = some (name, localOnly) →
      ∃ found, t.resolve? i.scope name localOnly = some (.ok found))
    (he : i.op.effect? = some (taken, left)) (r : Region) (d : Draft)
    (hh : taken ≤ r.stack.length) :
    ∃ r' d', (∀ run after, step t run i after r d = .ok ((r', after), d')) ∧
      Advances taken left r d r' d' := by
  obtain ⟨op, scope⟩ := i
  cases op with
  | ifTrue | orElse | whileTrue | loopBody | defineMethod | defineBlock | endBlock => cases he
  | pushInt n =>
    cases he
    exact ⟨_, _, fun _ _ => rfl, advances_literal (.int n) (.refl d)⟩
  | pushString s =>
    cases he
    exact ⟨_, _, fun _ _ => rfl, advances_literal (.str (d.stringRef s)) (d.grows_addString s)⟩
  | pushSymbol s =>
    cases he
    exact ⟨_, _, fun _ _ => rfl, advances_literal (.sym (d.symbolRef s)) (d.grows_addSymbol s)⟩
  | pushNil =>
    cases he
    exact ⟨_, _, fun _ _ => rfl, advances_literal .nil (.refl d)⟩
  | pushTrue =>
    cases he
    exact ⟨_, _, fun _ _ => rfl, advances_literal (.bool true) (.refl d)⟩
  | pushFalse =>
    cases he
    exact ⟨_, _, fun _ _ => rfl, advances_literal (.bool false) (.refl d)⟩
  | pushSelf =>
    cases he
    exact ⟨_, _, fun _ _ => rfl, advances_literal .self (.refl d)⟩
  | pushArg n =>
    cases he
    exact ⟨_, _, fun _ _ => rfl, advances_literal (.arg n) (.refl d)⟩
  | pop =>
    cases he
    obtain ⟨v, below, hs⟩ := exists_top hh
    obtain ⟨r', hr, hstack, -⟩ := Region.exists_discard hs
    refine ⟨r', d, fun _ _ => step_pop hr, .refl d, [], rfl, ?_, fun _ hn => nomatch hn⟩
    rw [hstack, hs]
    rfl
  | dup =>
    cases he
    obtain ⟨v, below, hs⟩ := exists_top hh
    refine ⟨_, _, fun _ _ => step_dup hs, .refl d, [v, v], rfl, ?_, fun n hn => .inr ?_⟩
    · show v :: r.stack = _
      rw [hs]
      rfl
    · have hv : .temp n = v := by simpa using hn
      rw [hs, hv]
      exact List.mem_cons_self ..
  | getLocal name =>
    cases he
    obtain ⟨found, hfound⟩ := hfound name false rfl
    exact ⟨_, _, fun _ _ => step_getLocal hfound, advances_memoize (e := d) rfl _ (.refl d)⟩
  | setLocal name localOnly =>
    cases he
    obtain ⟨v, below, hs⟩ := exists_top hh
    obtain ⟨found, hfound⟩ := hfound name localOnly rfl
    exact ⟨_, _, fun _ _ => step_setLocal hs hfound, advances_emit (by rw [hs]; rfl) _ (.refl d)⟩
  | getGlobal name =>
    cases he
    exact ⟨_, _, fun _ _ => rfl,
      advances_memoize (e := d.addSymbol name) rfl (.load (.global (d.symbolRef name)))
        (d.grows_addSymbol name)⟩
  | setGlobal name =>
    cases he
    obtain ⟨v, below, hs⟩ := exists_top hh
    exact ⟨_, _, fun _ _ => step_setGlobal hs name,
      advances_emit (by rw [hs]; rfl) _ (d.grows_addSymbol name)⟩
  | checkArgs expected =>
    cases he
    exact ⟨_, _, fun _ _ => rfl, advances_emit rfl (.checkArgs expected) (.refl d)⟩
  | send message argc receiver withBlock =>
    rw [Op.effect?_send (hargs message argc receiver withBlock rfl)] at he
    cases he
    obtain ⟨block, target, args, below, rfl, rfl, hargs, hs⟩ :=
      exists_operands receiver withBlock hh
    refine ⟨_, _, fun _ _ => step_send hargs hs message,
      advances_memoize (e := d.addSymbol message) ?_ _ (d.grows_addSymbol message)⟩
    have hsize : ∀ o : Option Operand, o.toList.length = o.isSome.toNat := by
      intro o
      cases o <;> rfl
    have hall : r.stack = (block.toList ++ args.reverse ++ target.toList) ++ below := by
      rw [hs, List.append_assoc, List.append_assoc]
    rw [hall]
    refine List.drop_left' ?_
    rw [List.length_append, List.length_append, List.length_reverse, hsize, hsize]
    omega
  | yield argc =>
    cases he
    obtain ⟨args, below, hargs, hs⟩ := exists_args hh
    refine ⟨_, _, fun _ _ => step_yield hargs hs, advances_memoize (e := d) ?_ _ (.refl d)⟩
    rw [hs]
    exact List.drop_left' (by rw [List.length_reverse, hargs])
  | ret =>
    cases he
    obtain ⟨v, below, hs⟩ := exists_top hh
    exact ⟨_, _, fun _ _ => step_ret hs, advances_emit (by rw [hs]; rfl) _ (.refl d)⟩
  | breakOut =>
    cases he
    exact ⟨_, _, fun _ _ => rfl, advances_emit rfl .breakLoop (.refl d)⟩
  | next withValue =>
    cases withValue with
    | false =>
      cases he
      exact ⟨_, _, fun _ _ => rfl, advances_emit rfl .continueLoop (.refl d)⟩
    | true =>
      cases he
      obtain ⟨v, below, hs⟩ := exists_top hh
      exact ⟨_, _, fun _ _ => step_finish hs, advances_emit (by rw [hs]; rfl) _ (.refl d)⟩
  | halt =>
    cases he
    exact ⟨_, _, fun _ _ => rfl, advances_emit rfl .exit (.refl d)⟩
  | setVisibility visibility =>
    cases he
    exact ⟨_, _, fun _ _ => rfl, advances_emit rfl (.setVisibility visibility) (.refl d)⟩

/-- An instruction that is admitted finds what it needs besides its operands. -/
theorem exists_step {t : ScopeTree} {p : Point} {i : Instruction} {taken left : Nat}
    (ha : (placement t).admits p i = true) (he : i.op.effect? = some (taken, left)) (r : Region)
    (d : Draft) (hh : taken ≤ r.stack.length) :
    ∃ r' d', (∀ run after, step t run i after r d = .ok ((r', after), d')) ∧
      Advances taken left r d r' d' := by
  obtain ⟨-, -, -, hfits⟩ := admits_placement_iff.mp ha
  refine exists_step_of_found ?_ ?_ he r d hh
  · intro message argc receiver withBlock hop
    rw [hop] at hfits
    exact of_decide_eq_true hfits
  · intro name localOnly haccess
    cases hop : i.op <;> rw [hop] at haccess hfits <;> cases haccess
    · exact exists_resolved hfits
    · exact exists_resolved hfits

end StackCode.CUnit
