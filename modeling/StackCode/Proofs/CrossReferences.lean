import Mathlib.Data.List.Nodup
import StackCode.Proofs.GeneratedCode
import StackCode.Proofs.LayoutReading

/-!
# References of a unit

A function refers to texts by number and to other functions by name, while the tables and the list
of functions are still growing. In the finished unit every reference holds
(`generate_references_hold`): the number is that of the text which the instruction names, and the
name is that of one function, which was made of the body behind the instruction. Numbers are never
given twice, so the names of functions are distinct although little of a method's own name is left
in them.

These are the references of the layout, and C reads no others (`readAsLaidOut_of_generate`) as long
as no name of the program ends the comment that repeats it (`Program.KeepsComments`). A name that
does can refer to anything (`stringInName_dangles`).
-/

namespace StackCode

/-- The name that C repeats in a comment for an instruction. -/
def Op.commented? : Op → Option String
  | .getLocal name | .setLocal name _ | .send name .. => some name
  | _ => none

/-- No name of the program ends the comment that repeats it. -/
def Program.KeepsComments (p : Program) : Prop :=
  ∀ i ∈ p.code, ∀ name ∈ i.op.commented?, CUnit.CommentKept name

instance (p : Program) : Decidable p.KeepsComments :=
  inferInstanceAs (Decidable (∀ i ∈ p.code, ∀ name ∈ i.op.commented?, CUnit.CommentKept name))

namespace CUnit

/-! ## Tokens of generated code -/

/-- The reference that a token is stands for something, and the name in a comment is one of those
that are `named`. -/
def Token.Linked (link : Linking) (named : String → Prop) : Token → Prop
  | .comment name => named name
  | .symbol ref | .global ref | .message ref => ∃ d s, link.symbol d s ref
  | .string ref => ∃ d s, link.string d s ref
  | .method ref name => (∃ d s, link.symbol d s ref) ∧
      ∃ number text f, name = .method number text ∧ f.name = name ∧ link.function f
  | .closure name => ∃ number f, name = .block number ∧ f.name = name ∧ link.function f
  | .raw _ => False
  | .text _ | .number _ | .integer _ | .opening | .closing | .declare _ | .use _ | .slot .. | .send
  | .function _ => True

instance (link : Linking) (named : String → Prop) : PlainTemps (Token.Linked link named) where
  plain token h := by
    cases token with
    | comment | symbol | global | message | string | method | closure | raw => cases h
    | _ => trivial
  declare _ := trivial
  use _ := trivial

section

variable {link : Linking} {named : String → Prop} {d : Draft} {i : Instruction}
  {stack below : List Operand}

/-- A constant refers to its own text. -/
theorem Constant.links {op : Op} {a : Atom} (h : Constant link d op a) :
    Every (Token.Linked link named) (Operand.literal a).tokens := by
  cases h with
  | string href | symbol href => exact every_cons ⟨_, _, href⟩ every_nil
  | int n =>
    show Every _ (if _ then _ else _)
    split <;> exact every_of_isPlain rfl
  | _ => exact every_of_isPlain rfl

variable {t : ScopeTree} {P : Token → Prop} [Plain P]

/-- What is computed consists of the operands that are taken, goes to the place of a variable or
refers to a symbol at most, and repeats the name of the instruction at most. -/
theorem Computed.every {value : Rhs} (h : Computed t link d i stack value below)
    (hslot : ∀ name localOnly found, t.resolve? i.scope name localOnly = some (.ok found) →
      P (.slot found.depth found.slot name))
    (hsymbol : ∀ s ref, link.symbol d s ref → P (.global ref) ∧ P (.message ref))
    (hcomment : ∀ name ∈ i.op.commented?, P (.comment name))
    (hs : ∀ v ∈ stack, Every P v.tokens) :
    Every P value.tokens ∧ ∀ v ∈ below, Every P v.tokens := by
  cases h with
  | getLocal hi hfound =>
    refine ⟨every_cons (hslot _ _ _ hfound) (every_plain rfl (every_cons (hcomment _ ?_)
      every_nil)), hs⟩
    rw [hi]
    rfl
  | getGlobal _ href => exact ⟨every_cons (hsymbol _ _ href).1 every_nil, hs⟩
  | @send message _ ref target block args _ hi _ heq href =>
    have hname : P (.comment ref.text) := by
      refine hcomment _ ?_
      rw [hi, link.text href]
      rfl
    subst heq
    simp only [List.mem_append, List.mem_reverse, Option.mem_toList] at hs
    have hblock : Every P (optionTokens block "rt_nil()" ++ [.text ")"]) :=
      every_append (every_optionTokens (fun v hv => hs v (.inl hv)) _) (every_of_isPlain rfl)
    have hargs : Every P (argTokens args) := every_argTokens fun v hv => hs v (.inr (.inl hv))
    have hmessage : Every P (.message ref :: .text " " :: .comment ref.text :: .text ", " ::
        .number args.length :: .text ", " :: (argTokens args ++ .text ", " ::
          (optionTokens block "rt_nil()" ++ [.text ")"]))) :=
      every_cons (hsymbol _ _ href).2 (every_plain rfl (every_cons hname (every_plain rfl
        (every_plain rfl (every_plain rfl (every_append hargs (every_plain rfl hblock)))))))
    refine ⟨every_plain rfl (every_append ?_ (every_plain rfl hmessage)), ?_⟩
    · exact every_optionTokens (fun v hv => hs v (.inr (.inr (.inl hv)))) _
    · exact fun v hv => hs v (.inr (.inr (.inr hv)))
  | yield _ _ heq =>
    subst heq
    simp only [List.mem_append, List.mem_reverse] at hs
    refine ⟨every_plain rfl (every_plain rfl (every_plain rfl (every_append ?_
      (every_of_isPlain rfl)))), fun v hv => hs v (.inr hv)⟩
    exact every_argTokens fun v hv => hs v (.inl hv)

/-- A statement consists of the operands that are taken, goes to the place of a variable or refers to
a symbol at most, and repeats the name of the instruction at most. -/
theorem Executed.every {s : Stmt} (h : Executed t link d i stack s below)
    (hslot : ∀ name localOnly found, t.resolve? i.scope name localOnly = some (.ok found) →
      P (.slot found.depth found.slot name))
    (hsymbol : ∀ s ref, link.symbol d s ref → P (.global ref) ∧ P (.message ref))
    (hcomment : ∀ name ∈ i.op.commented?, P (.comment name))
    (hs : ∀ v ∈ stack, Every P v.tokens) :
    Every P s.tokens ∧ ∀ v ∈ below, Every P v.tokens := by
  have hline : ∀ {v : Operand}, Every P v.tokens → Every P (v.tokens ++ [.text ";"]) :=
    fun hv => every_append hv (every_of_isPlain rfl)
  cases h with
  | setLocal hi heq hfound =>
    subst heq
    rw [List.forall_mem_cons] at hs
    refine ⟨every_cons (hslot _ _ _ hfound) (every_plain rfl (every_cons (hcomment _ ?_)
      (every_plain rfl (hline hs.1)))), hs.2⟩
    rw [hi]
    rfl
  | setGlobal _ heq href =>
    subst heq
    rw [List.forall_mem_cons] at hs
    exact ⟨every_cons (hsymbol _ _ href).1 (every_plain rfl (hline hs.1)), hs.2⟩
  | leave _ heq =>
    subst heq
    rw [List.forall_mem_cons] at hs
    exact ⟨every_plain rfl (hline hs.1), hs.2⟩
  | @setVisibility v _ =>
    refine ⟨?_, hs⟩
    cases v <;> exact every_of_isPlain rfl
  | _ => exact ⟨every_of_isPlain rfl, hs⟩

end

/-- The lines of statements are those of each of them. -/
theorem mem_layouts {k : Nat} {stmts : List Stmt} {line : Line} :
    line ∈ Stmt.layouts k stmts ↔ ∃ s ∈ stmts, line ∈ Stmt.layout k s := by
  induction stmts with
  | nil => simp [Stmt.layouts]
  | cons s rest ih => simp [Stmt.layouts, ih]

/-- All tokens of a statement have the property. -/
def Stmt.Only (P : Token → Prop) (s : Stmt) : Prop := ∀ k, ∀ line ∈ Stmt.layout k s, Every P line

/-- All tokens of a region have the property. -/
structure Region.Only (P : Token → Prop) (r : Region) : Prop where
  stack : ∀ v ∈ r.stack, Every P v.tokens
  code : ∀ s ∈ r.code, s.Only P

/-- All tokens in the body of a function have the property. -/
def Function.Only (P : Token → Prop) (f : Function) : Prop := ∀ s ∈ f.body, s.Only P

section

variable {P : Token → Prop} {r r' : Region} {s : Stmt} {v : Operand} {below : List Operand}

theorem every_layouts {stmts : List Stmt} (h : ∀ s ∈ stmts, s.Only P) (k : Nat) :
    ∀ line ∈ Stmt.layouts k stmts, Every P line := by
  intro line hline
  obtain ⟨s, hs, hmem⟩ := mem_layouts.mp hline
  exact h s hs k line hmem

theorem Stmt.every_tokens (hs : s.isLine = true) (h : s.Only P) : Every P s.tokens := by
  intro token htoken
  refine h 0 (.text (pad 0) :: s.tokens) ?_ token (List.mem_cons_of_mem _ htoken)
  rw [Stmt.layout_of_isLine hs]
  exact List.mem_singleton_self _

variable [PlainTemps P]

theorem Stmt.only_of_tokens (hs : s.isLine = true) (h : Every P s.tokens) : s.Only P := by
  intro k line hline
  rw [Stmt.layout_of_isLine hs] at hline
  cases List.mem_singleton.mp hline
  exact every_plain rfl h

/-- The lines of a conditional are those of its arms and of its condition. -/
theorem Stmt.only_ifElse {yes no : List Stmt} (hv : Every P v.tokens)
    (hyes : ∀ s ∈ yes, s.Only P) (hno : ∀ s ∈ no, s.Only P) : (Stmt.ifElse v yes no).Only P := by
  intro k line hline
  simp only [Stmt.layout, List.mem_append, List.mem_cons, List.not_mem_nil, or_false] at hline
  rcases hline with rfl | hline | rfl | hline | rfl
  · exact every_plain rfl (every_plain rfl (every_append hv (every_of_isPlain rfl)))
  · exact every_layouts hyes _ line hline
  · exact every_of_isPlain rfl
  · exact every_layouts hno _ line hline
  · exact every_of_isPlain rfl

theorem Stmt.only_loop {test body : List Stmt} (hv : Every P v.tokens)
    (htest : ∀ s ∈ test, s.Only P) (hbody : ∀ s ∈ body, s.Only P) :
    (Stmt.loop test v body).Only P := by
  intro k line hline
  simp only [Stmt.layout, List.mem_append, List.mem_cons, List.not_mem_nil, or_false] at hline
  rcases hline with rfl | hline | rfl | hline | rfl
  · exact every_of_isPlain rfl
  · exact every_layouts htest _ line hline
  · exact every_plain rfl (every_plain rfl (every_append hv (every_of_isPlain rfl)))
  · exact every_layouts hbody _ line hline
  · exact every_of_isPlain rfl

namespace Region.Only

omit [PlainTemps P] in
/-- A region that starts with operands of another one. -/
theorem fork (h : ∀ v ∈ below, Every P v.tokens) : Region.Only P { stack := below } :=
  ⟨h, fun _ hs => nomatch hs⟩

omit [PlainTemps P] in
theorem push (h : r.Only P) (hv : Every P v.tokens) : (r.push v).Only P :=
  ⟨List.forall_mem_cons.mpr ⟨hv, h.stack⟩, h.code⟩

/-- A statement on one line, with other operands on the stack. -/
theorem emit (h : r.Only P) (hs : s.isLine = true) (hline : Every P s.tokens)
    (hbelow : ∀ v ∈ below, Every P v.tokens) : Region.Only P ({ r with stack := below }.emit s) :=
  ⟨hbelow, List.forall_mem_cons.mpr ⟨Stmt.only_of_tokens hs hline, h.code⟩⟩

theorem memoize (h : r.Only P) {value : Rhs} (hvalue : Every P value.tokens)
    (hbelow : ∀ v ∈ below, Every P v.tokens) (n : Nat) :
    Region.Only P ({ r with stack := below }.memoize n value) := by
  refine (h.emit rfl ?_ hbelow).push (every_cons (PlainTemps.use n) every_nil)
  exact every_cons (PlainTemps.declare n) (every_plain rfl (every_append hvalue
    (every_of_isPlain rfl)))

theorem discard (h : r.Only P) (hr : ∀ index, r.discard index = .ok r') (hs : r.stack ≠ []) :
    r'.Only P := by
  obtain ⟨v, below, hs⟩ := List.exists_cons_of_ne_nil hs
  have hstack := h.stack
  have hcode := h.code
  rw [hs, List.forall_mem_cons] at hstack
  obtain ⟨r₁, hr₁, hbelow, hcases⟩ := Region.exists_discard hs
  obtain rfl : r₁ = r' := Except.ok.inj ((hr₁ 0).symm.trans (hr 0))
  refine ⟨hbelow ▸ hstack.2, ?_⟩
  rcases hcases with heq | ⟨n, value, rest, -, -, hold, hnew⟩
  · exact heq ▸ hcode
  · -- the value is still computed
    rw [hold, List.forall_mem_cons] at hcode
    rw [hnew, List.forall_mem_cons]
    refine ⟨Stmt.only_of_tokens rfl fun token htoken => ?_, hcode.2⟩
    exact Stmt.every_tokens rfl hcode.1 token
      (List.mem_cons_of_mem _ (List.mem_cons_of_mem _ htoken))

omit [PlainTemps P] in
theorem statements (h : r.Only P) : ∀ s ∈ r.statements, s.Only P :=
  fun s hs => h.code s (List.mem_reverse.mp hs)

theorem assignTop (h : r.Only P) (temps : List Nat) :
    ∀ s ∈ (assignTop temps r).statements, s.Only P := by
  rw [statements_assignTop]
  intro s hs
  rcases List.mem_append.mp hs with hs | hs
  · exact h.statements s hs
  · obtain ⟨⟨n, v⟩, hmem, rfl⟩ := List.mem_map.mp hs
    have hv := List.mem_of_mem_take (List.mem_reverse.mp (List.of_mem_zip hmem).2)
    exact Stmt.only_of_tokens rfl (every_cons (PlainTemps.use n) (every_plain rfl
      (every_append (h.stack v hv) (every_of_isPlain rfl))))

/-- Merging two arms adds nothing but temps. -/
theorem joined (h : r.Only P) (hv : Every P v.tokens) {yes no : Region} (hyes : yes.Only P)
    (hno : no.Only P) (next : Nat) : (r.joined v next yes no).Only P := by
  constructor
  · intro w hw
    rcases List.mem_append.mp hw with hw | hw
    · obtain ⟨n, -, rfl⟩ := List.mem_map.mp (List.mem_reverse.mp hw)
      exact every_cons (PlainTemps.use n) every_nil
    · exact h.stack w (List.mem_of_mem_drop hw)
  · refine List.forall_mem_cons.mpr
      ⟨Stmt.only_ifElse hv (hyes.assignTop _) (hno.assignTop _), fun s hs => ?_⟩
    rcases List.mem_append.mp hs with hs | hs
    · obtain ⟨n, -, rfl⟩ := List.mem_map.mp (List.mem_reverse.mp hs)
      exact Stmt.only_of_tokens rfl (every_cons (PlainTemps.declare n) (every_of_isPlain rfl))
    · exact h.code s hs

/-- The body of a function is its region and a return. -/
theorem toFunction (h : r.Only P) (hv : Every P v.tokens) (name : FunctionName) (scope : ScopeId)
    (owned : Scope) : (r.toFunction name scope owned v).Only P :=
  (h.emit (s := .ret v) rfl (every_plain rfl (every_append hv (every_of_isPlain rfl)))
    h.stack).statements

end Region.Only

/-- What holds of the tokens of a body holds of the whole function. -/
theorem Function.every_layout {f : Function} (h : f.Only P) : ∀ line ∈ f.layout, Every P line := by
  refine List.forall_mem_cons.mpr ⟨f.every_head, List.forall_mem_append.mpr
    ⟨List.forall_mem_append.mpr ⟨?_, every_layouts h 1⟩, ?_⟩⟩
  · exact List.forall_mem_map.mpr fun line hline => every_plain rfl (f.every_setup line hline)
  · exact List.forall_mem_singleton.mpr (every_of_isPlain rfl)

end

section

variable {link : Linking} {named : String → Prop} {t : ScopeTree} {d d' : Draft} {i : Instruction}
  {seg : Segment} {r r' : Region} {s : Stmt} {stack below : List Operand}

theorem Executed.isLine (h : Executed t link d i stack s below) : s.isLine = true := by
  cases h <;> rfl

theorem Region.ne_nil_of_discard (h : ∀ index, r.discard index = .ok r') : r.stack ≠ [] := by
  intro hs
  have hfail := h 0
  unfold Region.discard Region.pop at hfail
  rw [hs] at hfail
  cases hfail

/-- An instruction adds references to what it names. -/
theorem Acts.linked (h : Acts t link d i r r') (hnamed : ∀ name ∈ i.op.commented?, named name)
    (hr : r.Only (Token.Linked link named)) : r'.Only (Token.Linked link named) := by
  have hslot : ∀ name localOnly found, t.resolve? i.scope name localOnly = some (.ok found) →
      Token.Linked link named (.slot found.depth found.slot name) := fun _ _ _ _ => trivial
  have hsymbol : ∀ s ref, link.symbol d s ref → Token.Linked link named (.global ref) ∧
      Token.Linked link named (.message ref) := fun _ _ href => ⟨⟨_, _, href⟩, _, _, href⟩
  cases h with
  | constant ha => exact hr.push ha.links
  | pop _ hdiscard => exact hr.discard hdiscard (Region.ne_nil_of_discard hdiscard)
  | dup _ hs => exact hr.push (hr.stack _ (hs ▸ List.mem_cons_self ..))
  | compute hvalue =>
    obtain ⟨htokens, hbelow⟩ := hvalue.every hslot hsymbol hnamed hr.stack
    exact hr.memoize htokens hbelow _
  | execute hs =>
    obtain ⟨htokens, hbelow⟩ := hs.every hslot hsymbol hnamed hr.stack
    exact hr.emit hs.isLine htokens hbelow

/-- **All references of generated code stand for something**, and comments repeat names of its
instructions. -/
theorem Generates.linked (h : Generates t link seg r d r' d')
    (hnamed : ∀ i ∈ seg.code, ∀ name ∈ i.op.commented?, named name)
    (hr : r.Only (Token.Linked link named)) (hd : d.Each (Function.Only (Token.Linked link named))) :
    r'.Only (Token.Linked link named) ∧ d'.Each (Function.Only (Token.Linked link named)) := by
  induction h with
  | nil => exact ⟨hr, hd⟩
  | plain ha _ ih =>
    rw [List.forall_mem_cons] at hnamed
    exact ih hnamed.2 (ha.linked hnamed.1 hr) (hd.of_functions_eq (Draft.functions_after _ _))
  | @cond _ _ _ _ _ _ _ r _ _ _ _ _ _ _ _ below _ hcut hcut' hs _ _ _ ihy ihn ihr =>
    obtain ⟨hin, hmid⟩ := Segment.forall_mem_of_takeBlock hcut (List.forall_mem_cons.mp hnamed).2
    obtain ⟨hin', hafter⟩ := Segment.forall_mem_of_takeBlock hcut' hmid
    have hstack := hr.stack
    rw [hs, List.forall_mem_cons] at hstack
    obtain ⟨hyes, hd₁⟩ := ihy hin (.fork hstack.2) hd
    obtain ⟨hno, hd₂⟩ := ihn hin' (.fork hstack.2) hd₁
    have hbelow : Region.Only (Token.Linked link named) { r with stack := below } :=
      ⟨hstack.2, hr.code⟩
    exact ihr hafter (hbelow.joined hstack.1 hyes hno _) (hd₂.of_functions_eq rfl)
  | loop _ hcut hcut' _ hs _ _ iht ihb ihr =>
    obtain ⟨hin, hmid⟩ := Segment.forall_mem_of_takeBlock hcut (List.forall_mem_cons.mp hnamed).2
    obtain ⟨hin', hafter⟩ := Segment.forall_mem_of_takeBlock hcut' hmid
    obtain ⟨htest, hd₁⟩ := iht hin (.fork hr.stack) hd
    obtain ⟨hbody, hd₂⟩ := ihb hin' (.fork hr.stack) hd₁
    have hv := htest.stack _ (hs ▸ List.mem_cons_self ..)
    refine ihr hafter ⟨hr.stack, List.forall_mem_cons.mpr ⟨?_, hr.code⟩⟩ hd₂
    exact Stmt.only_loop hv htest.statements hbody.statements
  | method _ hcut _ hs _ hname hf _ ihb ihr =>
    obtain ⟨hin, hafter⟩ := Segment.forall_mem_of_takeBlock hcut (List.forall_mem_cons.mp hnamed).2
    obtain ⟨hinner, hd₁⟩ := ihb hin (.fork nofun) (hd.of_functions_eq rfl)
    have hv := hinner.stack _ (hs ▸ List.mem_cons_self ..)
    refine ihr hafter (Region.Only.push (hr.emit rfl ?_ hr.stack) ?_)
      ((hd₁.of_functions_eq rfl).addFunction (hinner.toFunction hv _ _ _))
    · exact every_cons ⟨⟨_, _, hname⟩, _, _, _, rfl, rfl, hf⟩ (every_of_isPlain rfl)
    · exact every_cons ⟨_, _, hname⟩ every_nil
  | @block _ _ _ _ _ _ _ _ d _ _ _ _ owned s _ hcut _ hs _ hf _ ihb ihr =>
    obtain ⟨hin, hafter⟩ := Segment.forall_mem_of_takeBlock hcut (List.forall_mem_cons.mp hnamed).2
    obtain ⟨hinner, hd₁⟩ := ihb hin (.fork nofun) (hd.of_functions_eq rfl)
    have hv := hinner.stack _ (hs ▸ List.mem_cons_self ..)
    have hunit := hd₁.addFunction (hinner.toFunction hv (.block d.nextFunction) s owned)
    refine ihr hafter (hr.memoize ?_ hr.stack _) (hunit.of_functions_eq rfl)
    exact every_plain rfl (every_cons ⟨_, _, rfl, rfl, hf⟩ (every_of_isPlain rfl))

end

/-! ## Names of functions -/

/-- The number in front of an underscore. -/
theorem number_of_append {m n : Nat} {x y : List Char}
    (h : (toString m).toList ++ '_' :: x = (toString n).toList ++ '_' :: y) : m = n := by
  have hdigits : ∀ (n : Nat) (x : List Char),
      ((toString n).toList ++ '_' :: x).takeWhile Char.isDigit = Nat.toDigits 10 n := by
    intro n x
    rw [show (toString n).toList = Nat.toDigits 10 n from Nat.toList_repr,
      List.takeWhile_append_of_pos, List.takeWhile_cons_of_neg (by decide), List.append_nil]
    exact fun c hc => Nat.isDigit_of_mem_toDigits (by decide) (by decide) hc
  have heq := congrArg (List.takeWhile Char.isDigit) h
  rw [hdigits, hdigits] at heq
  have hvalue := congrArg (Nat.ofDigitChars 10 · 0) heq
  simp only [Nat.ofDigitChars_toDigits (b := 10) (by decide) (by decide)] at hvalue
  exact hvalue

/-- The name of a function in C tells its number, and whether it is the top level. -/
theorem FunctionName.number_of_code {a b : FunctionName} (h : a.code = b.code) :
    a.number = b.number ∧ (a = .main ↔ b = .main) := by
  have hchars := congrArg String.toList h
  have hmethod : "m".toList = ['m'] := rfl
  have hblock : "b".toList = ['b'] := rfl
  have hmain : "cinder_main".toList = 'c' :: "inder_main".toList := rfl
  have hunderscore : "_".toList = ['_'] := rfl
  have hsuffix : "_block".toList = '_' :: "block".toList := rfl
  -- the first letter tells the kinds apart, and the digits behind it end at the underscore
  cases a <;> cases b <;>
    simp only [FunctionName.code, String.toList_append, List.append_assoc, hmethod, hblock, hmain,
      hunderscore, hsuffix, List.cons_append, List.nil_append, List.cons.injEq, Char.reduceEq,
      false_and] at hchars
  · exact ⟨rfl, Iff.rfl⟩
  · exact ⟨number_of_append hchars.2, iff_of_false (by simp) (by simp)⟩
  · exact ⟨number_of_append hchars.2, iff_of_false (by simp) (by simp)⟩

theorem Draft.strings_after {d : Draft} (h : d.strings.entries.Nodup) (op : Op) :
    (d.after op).strings.entries.Nodup := by
  cases op with
  | pushString s => exact Interned.nodup_intern h s
  | _ => exact h

section

variable {t : ScopeTree} {link : Linking} {seg : Segment} {r r' : Region} {d d' : Draft}

theorem Generates.nodup_strings (h : Generates t link seg r d r' d')
    (hd : d.strings.entries.Nodup) : d'.strings.entries.Nodup := by
  induction h with
  | nil => exact hd
  | plain _ _ ih => exact ih (Draft.strings_after hd _)
  | cond _ _ _ _ _ _ _ ihy ihn ihr => exact ihr (ihn (ihy hd))
  | loop _ _ _ _ _ _ _ iht ihb ihr => exact ihr (ihb (iht hd))
  | method _ _ _ _ _ _ _ _ ihb ihr | block _ _ _ _ _ _ _ ihb ihr => exact ihr (ihb hd)

/-- The functions of bodies are not the top level. -/
theorem Generates.ne_main (h : Generates t link seg r d r' d')
    (hd : d.Each (·.name ≠ .main)) : d'.Each (·.name ≠ .main) := by
  induction h with
  | nil => exact hd
  | plain _ _ ih => exact ih (hd.of_functions_eq (Draft.functions_after _ _))
  | cond _ _ _ _ _ _ _ ihy ihn ihr => exact ihr (ihn (ihy hd))
  | loop _ _ _ _ _ _ _ iht ihb ihr => exact ihr (ihb (iht hd))
  | method _ _ _ _ _ _ _ _ ihb ihr | block _ _ _ _ _ _ _ ihb ihr =>
    exact ihr ((ihb hd).addFunction nofun)

end

/-! ## The finished unit -/

/-- The functions of a unit that have this name in C. -/
def named (u : CUnit) (code : String) : List Function := u.allFunctions.filter (·.name.code = code)

/-- The references of a finished unit: entries of its tables, and functions that no other one has
the name of. -/
def linking (u : CUnit) : Linking where
  symbol _ s ref := ref.text = s ∧ u.symbols[ref.index]? = some s
  string _ s ref := ref.text = s ∧ u.strings[ref.index]? = some s
  function f := u.named f.name.code = [f]
  text h := h.1

section

variable {u : CUnit} {d d' : Draft}

/-- Functions with distinct numbers have distinct names in C. -/
theorem nodup_codes (hgrows : Draft.Grows {} d) (hne : d.Each (·.name ≠ .main))
    (hfunctions : u.functions = d.functions) (hmain : u.main.name = .main) :
    (u.allFunctions.map (·.name.code)).Nodup := by
  obtain ⟨more, heq, -, hnumbers⟩ := hgrows.functions
  rw [List.nil_append] at heq
  rw [← heq] at hnumbers
  rw [allFunctions, List.map_append, hfunctions, List.nodup_append]
  refine ⟨List.Nodup.map_on (fun f hf g hg hcode => ?_) (List.Nodup.of_map _ hnumbers),
    List.nodup_singleton _, fun code hcode main hlast hsame => ?_⟩
  · exact List.inj_on_of_nodup_map hnumbers hf hg (FunctionName.number_of_code hcode).1
  · obtain ⟨f, hf, rfl⟩ := List.mem_map.mp hcode
    obtain rfl := List.mem_singleton.mp hlast
    exact hne f hf ((FunctionName.number_of_code hsame).2.mpr hmain)

/-- A name that is given once names one function. -/
theorem named_of_mem (hcodes : (u.allFunctions.map (·.name.code)).Nodup) {f : Function}
    (hf : f ∈ u.allFunctions) : u.named f.name.code = [f] := by
  unfold named
  generalize u.allFunctions = functions at hcodes hf
  induction functions with
  | nil => cases hf
  | cons g rest ih =>
    rw [List.map_cons, List.nodup_cons] at hcodes
    rcases List.mem_cons.mp hf with rfl | hf
    · rw [List.filter_cons_of_pos (by simp), List.filter_eq_nil_iff.mpr]
      intro g hg hsame
      exact hcodes.1 (List.mem_map.mpr ⟨g, hg, of_decide_eq_true hsame⟩)
    · rw [List.filter_cons_of_neg, ih hcodes.2 hf]
      intro hsame
      exact hcodes.1 (List.mem_map.mpr ⟨f, hf, (of_decide_eq_true hsame).symm⟩)

/-- Within a finished unit the function of a body is the only one with its name. -/
theorem Draft.Within.named (hu : d.Within u) (hcodes : (u.allFunctions.map (·.name.code)).Nodup)
    {f : Function} (hf : f ∈ d.functions) : u.named f.name.code = [f] :=
  named_of_mem hcodes (List.mem_append_left _ (List.mem_of_find?_eq_some (hu.functions f hf)))

theorem Constant.within {op : Op} {a : Atom} (h : Constant .making d op a)
    (hu : (d.after op).Within u) : Constant u.linking d op a := by
  cases h with
  | string href =>
    subst href
    exact .string ⟨rfl, hu.stringRef⟩
  | symbol href =>
    subst href
    exact .symbol ⟨rfl, hu.symbolRef⟩
  | int n => exact .int n
  | nil => exact .nil
  | yes => exact .yes
  | no => exact .no
  | self => exact .self
  | arg n => exact .arg n

variable {t : ScopeTree} {i : Instruction} {stack below : List Operand} {r r' : Region}
  {seg : Segment}

theorem Computed.within {value : Rhs} (h : Computed t .making d i stack value below)
    (hu : (d.after i.op).Within u) : Computed t u.linking d i stack value below := by
  have hsymbol : ∀ {s : String}, d.after i.op = (d.addSymbol s).addTemps 1 →
      u.symbols[(d.symbolRef s).index]? = some s := fun hafter =>
    ((Draft.grows_addTemps _ 1).within (hafter ▸ hu)).symbolRef
  cases h with
  | getLocal hi hfound => exact .getLocal hi hfound
  | getGlobal hi href =>
    subst href
    exact .getGlobal hi ⟨rfl, hsymbol (by rw [hi]; rfl)⟩
  | send hi hargs hs href =>
    subst href
    exact .send hi hargs hs ⟨rfl, hsymbol (by rw [hi]; rfl)⟩
  | yield hi hargs hs => exact .yield hi hargs hs

theorem Executed.within {s : Stmt} (h : Executed t .making d i stack s below)
    (hu : (d.after i.op).Within u) : Executed t u.linking d i stack s below := by
  cases h with
  | setLocal hi hs hfound => exact .setLocal hi hs hfound
  | @setGlobal name _ _ _ hi hs href =>
    subst href
    rw [show d.after i.op = d.addSymbol name by rw [hi]; rfl] at hu
    exact .setGlobal hi hs ⟨rfl, hu.symbolRef⟩
  | leave hi hs => exact .leave hi hs
  | checkArgs hi => exact .checkArgs hi
  | breakOut hi => exact .breakOut hi
  | nextRound hi => exact .nextRound hi
  | halt hi => exact .halt hi
  | setVisibility hi => exact .setVisibility hi

/-- What an instruction refers to in the making it refers to in the finished unit. -/
theorem Acts.within (h : Acts t .making d i r r') (hu : (d.after i.op).Within u) :
    Acts t u.linking d i r r' := by
  cases h with
  | constant ha => exact .constant (ha.within hu)
  | pop hi hdiscard => exact .pop hi hdiscard
  | dup hi hs => exact .dup hi hs
  | compute hvalue => exact .compute (hvalue.within hu)
  | execute hs => exact .execute (hs.within hu)

/-- **What was made of code refers to the finished unit.** -/
theorem Generates.within (h : Generates t .making seg r d r' d') (hu : d'.Within u)
    (hcodes : (u.allFunctions.map (·.name.code)).Nodup) : Generates t u.linking seg r d r' d' := by
  induction h with
  | nil => exact .nil _ _ _
  | plain ha hr ih => exact .plain (ha.within (hr.grows.within hu)) (ih hu)
  | cond hi hcut hcut' hs _ hn hr ihy ihn ihr =>
    have hu₂ := ((Draft.grows_addTemps _ _).trans hr.grows).within hu
    exact .cond hi hcut hcut' hs (ihy (hn.grows.within hu₂)) (ihn hu₂) (ihr hu)
  | loop hi hcut hcut' _ hs hb hr iht ihb ihr =>
    have hu₂ := hr.grows.within hu
    exact .loop hi hcut hcut' (iht (hb.grows.within hu₂)) hs (ihb hu₂) (ihr hu)
  | @method _ _ _ _ _ _ _ _ _ d₁ _ _ _ _ name _ _ hi hcut _ hs hget href _ hr ihb ihr =>
    subst href
    have hafter := hr.grows.within hu
    have hsymbol : (d₁.addSymbol name).Within u :=
      ⟨hafter.symbols, hafter.strings, fun f hf => hafter.functions f (List.mem_append_left _ hf)⟩
    exact .method hi hcut (ihb ((Draft.grows_addSymbol _ _).within hsymbol)) hs hget
      ⟨rfl, hsymbol.symbolRef⟩
      (hafter.named hcodes (List.mem_append_right _ (List.mem_singleton_self _))) (ihr hu)
  | @block _ _ _ _ _ _ _ _ _ d₁ _ _ _ _ _ hi hcut _ hs hget _ hr ihb ihr =>
    have hafter := hr.grows.within hu
    have hbefore : d₁.Within u :=
      ⟨hafter.symbols, hafter.strings, fun f hf => hafter.functions f (List.mem_append_left _ hf)⟩
    exact .block hi hcut (ihb hbefore) hs hget
      (hafter.named hcodes (List.mem_append_right _ (List.mem_singleton_self _))) (ihr hu)

/-- The reference that a token is holds in the unit: a number is that of its text, and a name is
that of one function, a method or a block. -/
def Token.Holds (u : CUnit) : Token → Prop
  | .symbol ref | .global ref | .message ref => u.symbols[ref.index]? = some ref.text
  | .string ref => u.strings[ref.index]? = some ref.text
  | .method ref name => u.symbols[ref.index]? = some ref.text ∧
      ∃ number text f, name = .method number text ∧ f.name = name ∧ u.named name.code = [f]
  | .closure name => ∃ number f, name = .block number ∧ f.name = name ∧ u.named name.code = [f]
  | .raw _ => False
  | .text _ | .number _ | .integer _ | .comment _ | .opening | .closing | .declare _ | .use _
  | .slot .. | .send | .function _ => True

/-- A linked token refers to an entry of the unit. -/
theorem Token.holds_of_linked {token : Token} {named : String → Prop}
    (h : token.Linked u.linking named) : token.Holds u := by
  cases token with
  | symbol ref | global ref | message ref | string ref =>
    obtain ⟨-, s, rfl, hget⟩ := h
    exact hget
  | method ref name =>
    obtain ⟨⟨-, s, rfl, hget⟩, number, text, f, hname, rfl, hf⟩ := h
    exact ⟨hget, number, text, f, hname, rfl, hf⟩
  | closure name =>
    obtain ⟨number, f, hname, rfl, hf⟩ := h
    exact ⟨number, f, hname, rfl, hf⟩
  | raw s => exact h.elim
  | _ => trivial

end

/-- What the top level returns is an operand, or nil. -/
theorem Region.every_result {P : Token → Prop} [Plain P] {r : Region}
    (h : ∀ v ∈ r.stack, Every P v.tokens) : Every P r.result.tokens := by
  unfold Region.result
  cases hs : r.stack with
  | nil => exact every_of_isPlain rfl
  | cons v below => exact h v (hs ▸ List.mem_cons_self ..)

/-- All references of the functions of a unit stand for something, and comments repeat names of the
code. -/
theorem linked_of_generates {link : Linking} {named : String → Prop} {t : ScopeTree} {seg : Segment}
    {r : Region} {d : Draft} (h : Generates t link seg {} {} r d)
    (hnamed : ∀ i ∈ seg.code, ∀ name ∈ i.op.commented?, named name)
    (settings : Settings) (scope : ScopeId) (owned : Scope) :
    ∀ f ∈ (d.toUnit settings (r.toFunction .main scope owned r.result)).allFunctions,
      ∀ line ∈ f.layout, Every (Token.Linked link named) line := by
  obtain ⟨hr, hd⟩ := h.linked hnamed ⟨nofun, nofun⟩ nofun
  intro f hf
  refine Function.every_layout ?_
  rcases List.mem_append.mp hf with hf | hf
  · exact hd f hf
  · exact List.mem_singleton.mp hf ▸ hr.toFunction (Region.every_result hr.stack) .main scope owned

/-- No C stands in the functions of a unit as it is. -/
theorem ne_raw_of_generate {settings : Settings} {p : Program} {u : CUnit}
    (h : generate settings p = .ok u) :
    ∀ f ∈ u.allFunctions, ∀ line ∈ f.layout, ∀ text, .raw text ∉ line := by
  obtain ⟨r, d, owned, hgenerates, -, hunit⟩ := exists_generates h
  intro f hf line hline text htoken
  have hlinked : Every (Token.Linked .making fun _ => True) line :=
    linked_of_generates hgenerates (fun _ _ _ _ => trivial) settings .root owned f (hunit ▸ hf) line
      hline
  exact hlinked _ htoken

/-- **C reads the functions of a unit as they are laid out**, when no name ends its comment. -/
theorem readAsLaidOut_of_generate {settings : Settings} {p : Program} {u : CUnit}
    (h : generate settings p = .ok u) (hp : p.KeepsComments) :
    ∀ f ∈ u.allFunctions, f.ReadAsLaidOut := by
  obtain ⟨r, d, owned, hgenerates, -, hunit⟩ := exists_generates h
  intro f hf
  refine Function.readAsLaidOut_of_kept fun token htoken => ?_
  obtain ⟨line, hline, hmem⟩ := List.mem_flatten.mp htoken
  have hlinked := linked_of_generates hgenerates hp settings .root owned f (hunit ▸ hf) line hline
    token hmem
  cases token with
  | comment | raw => exact hlinked
  | _ => trivial

/-- **All references of a unit hold.** As every function is laid out, each number in it is that of an
entry of the finished table, each function that is named there is the only one with its name and of
the right kind, and numbers and names are not given twice; and C reads functions as they are laid
out, unless a name of the program ends the comment that repeats it. What an instruction emits refers
to what the instruction names, and to the function of the body behind it: the unit has a derivation
in which references are those of the finished unit. -/
theorem generate_references_hold {settings : Settings} {p : Program} {u : CUnit}
    (h : generate settings p = .ok u) :
    (∀ f ∈ u.allFunctions, f.layout.map Line.text = f.lines ∧
      ∀ line ∈ f.layout, ∀ token ∈ line, token.Holds u) ∧
    (p.KeepsComments → ∀ f ∈ u.allFunctions, f.ReadAsLaidOut) ∧
    u.symbols.Nodup ∧ u.strings.Nodup ∧ (u.allFunctions.map (·.name.code)).Nodup ∧
    ∃ r d owned, Generates p.scopes u.linking p.segment {} {} r d ∧
      u = d.toUnit settings (r.toFunction .main .root owned r.result) := by
  obtain ⟨r, d, owned, hgenerates, -, hunit⟩ := exists_generates h
  have hgrows := hgenerates.grows
  have hcodes : (u.allFunctions.map (·.name.code)).Nodup := by
    rw [hunit]
    exact nodup_codes hgrows (hgenerates.ne_main fun _ hf => nomatch hf) rfl rfl
  have hwithin : d.Within u := by
    rw [hunit]
    exact Draft.within_of_grows hgrows rfl rfl rfl
  have hfinished := hgenerates.within hwithin hcodes
  refine ⟨fun f hf => ⟨f.text_layout, fun line hline token htoken => ?_⟩,
    readAsLaidOut_of_generate h, ?_, ?_, hcodes, r, d, owned, hfinished, hunit⟩
  · have hlinked : Every (Token.Linked u.linking fun _ => True) line :=
      linked_of_generates hfinished (fun _ _ _ _ => trivial) settings .root owned f (hunit ▸ hf) line
        hline
    exact Token.holds_of_linked (hlinked token htoken)
  · rw [hunit]
    exact hgrows.distinct List.nodup_nil
  · rw [hunit]
    exact hgenerates.nodup_strings List.nodup_nil

theorem pickAndLoop_references_hold : ∃ u, generate {} pickAndLoop = .ok u ∧
    u.symbols = ["pick", "$on", "tap"] ∧ u.strings = ["yes", "no"] ∧
    u.functions.map (·.name) = [.method 0 "pick", .block 1] ∧ pickAndLoop.KeepsComments ∧
    (∀ f ∈ u.allFunctions, f.ReadAsLaidOut ∧ ∀ line ∈ f.layout, ∀ token ∈ line, token.Holds u) ∧
    (u.allFunctions.map (·.name.code)).Nodup := by
  have hkept : pickAndLoop.KeepsComments := by decide +kernel
  have htables : (generate {} pickAndLoop).map
      (fun u => (u.symbols, u.strings, u.functions.map (·.name))) =
        .ok (["pick", "$on", "tap"], ["yes", "no"], [.method 0 "pick", .block 1]) := by
    decide +kernel
  cases hu : generate {} pickAndLoop with
  | error e =>
    rw [hu] at htables
    cases htables
  | ok u =>
    rw [hu] at htables
    have htables := Except.ok.inj htables
    simp only [Prod.mk.injEq] at htables
    obtain ⟨hholds, hread, -, -, hcodes, -⟩ := generate_references_hold hu
    exact ⟨u, rfl, htables.1, htables.2.1, htables.2.2, hkept,
      fun f hf => ⟨hread hkept f hf, (hholds f hf).2⟩, hcodes⟩

/-- A message whose name ends its comment, and goes on with a string that the program does not
have. -/
def stringInName : Program where
  code := [
    ⟨.send "*\\\n/, 0, NULL, rt_str(999)); rt_send(self, 0, 0 /*" 0 false false, .root⟩,
    ⟨.pop, .root⟩]

/-- **A name can end its comment and refer to a string.** Both checks accept the program, and its C
asks for string 999 of none. -/
theorem stringInName_dangles : stringInName.validate = .ok () ∧
    checkHeights stringInName.code 0 = .ok () ∧
    ∃ u, generate {} stringInName = .ok u ∧ u.strings = [] ∧
      ["rt_str", "(", "999", ")"] <:+: wordsRead (textOf u.main.lines) := by
  refine ⟨by decide +kernel, by decide +kernel, ?_⟩
  have hwords : (generate {} stringInName).map (fun u => decide (u.strings = [] ∧
      ["rt_str", "(", "999", ")"] <:+: wordsRead (textOf u.main.lines))) = .ok true := by
    simp only [Function.wordsRead_text]
    decide +kernel
  cases hu : generate {} stringInName with
  | error e =>
    rw [hu] at hwords
    cases hwords
  | ok u =>
    rw [hu] at hwords
    exact ⟨u, rfl, of_decide_eq_true (Except.ok.inj hwords)⟩

end CUnit

end StackCode
