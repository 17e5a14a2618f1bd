import StackCode.Proofs.CrossReferences

/-!
# Temps are used where they are declared

A temp of C may be used only behind its declaration and inside the braces around that
(`DeclaredIn`). The generator keeps to this because the operands on its stack do: `Flows base stmts
stack` says that statements which find the operands `base` declared use nothing else, and leave the
operands `stack` declared. Arms and parts of loops start from the operands before them, and what
they declare themselves is never an operand behind them (`Generates.flows`).
-/

namespace StackCode.CUnit

/-! ## Braces -/

/-- How many blocks are open behind a token, of those that were opened since some point: `none` when
it closes a block that was open there. -/
def Token.depth? : Token → Nat → Option Nat
  | .opening, k => some (k + 1)
  | .closing, 0 => none
  | .closing, k + 1 => some k
  | _, k => some k

/-- How many blocks are open behind tokens, when `k` are open before them. -/
def depth? : Nat → Line → Option Nat
  | k, [] => some k
  | k, token :: rest => (token.depth? k).bind (depth? · rest)

/-- Every block that is opened here is closed here, and no other. -/
def Balanced (line : Line) : Prop := ∀ k, depth? k line = some k

/-- No block is closed here that was open before. -/
def KeepsOpen (line : Line) : Prop := ∀ k, (depth? k line).isSome = true

section

variable {k : Nat} {a b line : Line} {n : Nat}

/-- The depth of two pieces, one behind the other. -/
theorem depth?_append : depth? k (a ++ b) = (depth? k a).bind (depth? · b) := by
  induction a generalizing k with
  | nil => rfl
  | cons token rest ih =>
    simp only [List.cons_append, depth?]
    cases token.depth? k with
    | none => rfl
    | some m => exact ih

/-- Balanced pieces make a balanced line. -/
theorem Balanced.append (ha : Balanced a) (hb : Balanced b) : Balanced (a ++ b) := by
  intro k
  rw [depth?_append, ha k]
  exact hb k

theorem balanced_nil : Balanced [] := fun _ => rfl

/-- A token in front that is no brace. -/
theorem balanced_cons {token : Token} (h : token.depth? 0 = some 0) (hb : Balanced b) :
    Balanced (token :: b) := by
  intro k
  have hk : token.depth? k = some k := by
    cases token with
    | opening | closing => cases h
    | _ => rfl
  rw [depth?, hk]
  exact hb k

/-- Braces around. -/
theorem balanced_braces (ha : Balanced a) (hb : Balanced b) :
    Balanced (.opening :: (a ++ .closing :: b)) := by
  intro k
  show depth? (k + 1) (a ++ .closing :: b) = some k
  rw [depth?_append, ha (k + 1)]
  exact hb k

theorem Balanced.keepsOpen (h : Balanced a) : KeepsOpen a := fun k => by rw [h k]; rfl

theorem KeepsOpen.append (ha : KeepsOpen a) (hb : KeepsOpen b) : KeepsOpen (a ++ b) := by
  intro k
  obtain ⟨m, hm⟩ := Option.isSome_iff_exists.mp (ha k)
  rw [depth?_append, hm]
  exact hb m

/-- What stays open to the end stays open on the way. -/
theorem isSome_of_append (h : (depth? k (a ++ b)).isSome = true) : (depth? k a).isSome = true := by
  rw [depth?_append] at h
  cases ha : depth? k a with
  | none =>
    rw [ha] at h
    cases h
  | some m => rfl

end

/-! ## Tokens of operands -/

theorem Operand.balanced (v : Operand) : Balanced v.tokens := by
  cases v with
  | literal a =>
    cases a with
    | int n =>
      show Balanced (if _ then _ else _)
      split <;> exact fun _ => rfl
    | _ => exact fun _ => rfl
  | temp n => exact fun _ => rfl

theorem balanced_listTokens (args : List Operand) : Balanced (listTokens args) := by
  induction args with
  | nil => exact balanced_nil
  | cons v rest ih =>
    cases rest with
    | nil => exact v.balanced
    | cons w rest => exact v.balanced.append (balanced_cons rfl ih)

/-- The braces around an array of arguments belong together. -/
theorem balanced_argTokens (args : List Operand) : Balanced (argTokens args) := by
  cases args with
  | nil => exact balanced_cons rfl balanced_nil
  | cons v rest => exact balanced_cons rfl (balanced_braces (balanced_listTokens _) balanced_nil)

theorem balanced_optionTokens (o : Option Operand) (other : String) :
    Balanced (optionTokens o other) := by
  cases o with
  | none => exact balanced_cons rfl balanced_nil
  | some v => exact v.balanced

theorem Storage.balanced (place : Storage) : Balanced place.tokens := by
  cases place <;> exact fun _ => rfl

/-- A computation closes the braces that it opens. -/
theorem Rhs.balanced (value : Rhs) : Balanced value.tokens := by
  cases value with
  | load place => exact place.balanced
  | send receiver message args block =>
    have hblock : Balanced (optionTokens block "rt_nil()" ++ [.text ")"]) :=
      (balanced_optionTokens _ _).append fun _ => rfl
    have hmessage : Balanced (.message message :: .text " " :: .comment message.text ::
        .text ", " :: .number args.length :: .text ", " :: (argTokens args ++ .text ", " ::
          (optionTokens block "rt_nil()" ++ [.text ")"]))) :=
      balanced_cons rfl (balanced_cons rfl (balanced_cons rfl (balanced_cons rfl (balanced_cons rfl
        (balanced_cons rfl ((balanced_argTokens _).append (balanced_cons rfl hblock)))))))
    exact balanced_cons rfl ((balanced_optionTokens _ _).append (balanced_cons rfl hmessage))
  | yield args =>
    exact balanced_cons rfl (balanced_cons rfl (balanced_cons rfl
      ((balanced_argTokens _).append fun _ => rfl)))
  | closure | verbatim => exact fun _ => rfl

theorem Stmt.balanced_tokens (s : Stmt) : Balanced s.tokens := by
  have hline : ∀ {line : Line}, Balanced line → Balanced (line ++ [.text ";"]) :=
    fun h => h.append (balanced_cons rfl balanced_nil)
  cases s with
  | declare t value =>
    exact balanced_cons rfl (balanced_cons rfl (hline value.balanced))
  | eval value => exact hline value.balanced
  | assign t v => exact balanced_cons rfl (balanced_cons rfl (hline v.balanced))
  | store place v => exact place.balanced.append (balanced_cons rfl (hline v.balanced))
  | ret v => exact balanced_cons rfl (hline v.balanced)
  | setVisibility v => cases v <;> exact fun _ => rfl
  | _ => exact fun _ => rfl

/-- A line with an `if` opens one brace. -/
theorem depth?_ifLine (k m : Nat) (c : Operand) : depth? m (ifLine k c) = some (m + 1) := by
  show depth? m (c.tokens ++ _) = _
  rw [depth?_append, c.balanced]
  rfl

theorem balanced_testLine (k : Nat) (c : Operand) : Balanced (testLine k c) :=
  balanced_cons rfl (balanced_cons rfl (c.balanced.append (balanced_cons rfl balanced_nil)))

mutual

/-- The lines of a statement close the blocks that they open. -/
theorem Stmt.balanced_layout (k : Nat) (s : Stmt) : Balanced (Stmt.layout k s).flatten := by
  by_cases hs : s.isLine = true
  · rw [Stmt.layout_of_isLine hs, List.flatten_singleton]
    exact balanced_cons rfl s.balanced_tokens
  · intro m
    cases s with
    | ifElse c yes no =>
      simp only [Stmt.layout, List.flatten_cons, List.flatten_append, depth?_append, depth?_ifLine,
        Option.bind_some, Stmt.balanced_layouts (k + 1) yes (m + 1),
        Stmt.balanced_layouts (k + 1) no (m + 1),
        show depth? (m + 1) (elseLine k) = some (m + 1) from rfl]
      rfl
    | loop test c body =>
      simp only [Stmt.layout, List.flatten_cons, List.flatten_append, depth?_append,
        Option.bind_some, Stmt.balanced_layouts (k + 1) test (m + 1),
        balanced_testLine (k + 1) c (m + 1), Stmt.balanced_layouts (k + 1) body (m + 1),
        show depth? m (loopLine k) = some (m + 1) from rfl]
      rfl
    | indented lines =>
      rw [Stmt.layout]
      clear hs
      induction lines with
      | nil => rfl
      | cons line rest ih => exact ih
    | _ => exact absurd rfl hs

theorem Stmt.balanced_layouts (k : Nat) (stmts : List Stmt) :
    Balanced (Stmt.layouts k stmts).flatten := by
  cases stmts with
  | nil => exact balanced_nil
  | cons s rest =>
    rw [Stmt.layouts, List.flatten_append]
    exact (Stmt.balanced_layout k s).append (Stmt.balanced_layouts k rest)

end

/-! ## Declarations that are open -/

/-- The temp is declared in one of the lines `before`, and the block around that is still open
behind `start`, the first tokens of the next line. -/
def DeclaredIn (before : List Line) (start : Line) (n : Nat) : Prop :=
  ∃ earlier a b between, before = earlier ++ (a ++ .declare n :: b) :: between ∧
    (depth? 0 (b ++ between.flatten ++ start)).isSome = true

/-- Every use of a temp in the lines, before which there are others, is behind its declaration and
in the block around it. -/
def Scoped : List Line → List Line → Prop
  | _, [] => True
  | before, line :: rest =>
    (∀ start n stop, line = start ++ .use n :: stop → DeclaredIn before start n) ∧
      Scoped (before ++ [line]) rest

section

variable {before lines more : List Line} {line start : Line} {n : Nat}

/-- A declaration is in force as long as its braces are open. -/
theorem DeclaredIn.append (h : DeclaredIn before [] n) (hmore : KeepsOpen more.flatten) :
    DeclaredIn (before ++ more) [] n := by
  obtain ⟨earlier, a, b, between, rfl, hopen⟩ := h
  refine ⟨earlier, a, b, between ++ more, by simp, ?_⟩
  rw [List.append_nil] at hopen ⊢
  obtain ⟨m, hm⟩ := Option.isSome_iff_exists.mp hopen
  rw [List.flatten_append, ← List.append_assoc, depth?_append, hm]
  exact hmore m

/-- A temp is declared behind its declaration. -/
theorem declaredIn_of_declare {a b : Line} (hb : KeepsOpen b) :
    DeclaredIn (before ++ [a ++ .declare n :: b]) [] n :=
  ⟨before, a, b, [], rfl, by simpa using hb 0⟩

/-- A line that does not declare the temp can be taken away. -/
theorem DeclaredIn.of_append (h : DeclaredIn (before ++ [line]) [] n) (hline : .declare n ∉ line) :
    DeclaredIn before [] n := by
  obtain ⟨earlier, a, b, between, heq, hopen⟩ := h
  -- the declaration is in the line that is taken away, or before it
  rcases List.eq_nil_or_concat between with rfl | ⟨between, last, rfl⟩
  · obtain ⟨-, hlast⟩ := List.append_inj' heq rfl
    cases hlast
    exact absurd (List.mem_append_right _ (List.mem_cons_self ..)) hline
  · have hsplit : before ++ [line] = (earlier ++ (a ++ .declare n :: b) :: between) ++ [last] := by
      simp [heq]
    obtain ⟨hbefore, -⟩ := List.append_inj' hsplit rfl
    refine ⟨earlier, a, b, between, hbefore, ?_⟩
    rw [List.append_nil] at hopen ⊢
    rw [List.concat_eq_append, List.flatten_append, ← List.append_assoc] at hopen
    exact isSome_of_append hopen

/-- A temp that is declared before a line is so everywhere in it, unless the line closes a block. -/
theorem DeclaredIn.inLine {stop : Line} (h : DeclaredIn before [] n)
    (hline : KeepsOpen (start ++ stop)) : DeclaredIn before start n := by
  obtain ⟨earlier, a, b, between, rfl, hopen⟩ := h
  refine ⟨earlier, a, b, between, rfl, ?_⟩
  rw [List.append_nil] at hopen
  obtain ⟨m, hm⟩ := Option.isSome_iff_exists.mp hopen
  rw [depth?_append, hm]
  exact isSome_of_append (hline m)

theorem DeclaredIn.of_inLine (h : DeclaredIn before start n) : DeclaredIn before [] n := by
  obtain ⟨earlier, a, b, between, rfl, hopen⟩ := h
  refine ⟨earlier, a, b, between, rfl, ?_⟩
  rw [List.append_nil]
  exact isSome_of_append hopen

/-- Lines are scoped when the first ones are and the others are behind them. -/
theorem scoped_append : Scoped before (lines ++ more) ↔
    Scoped before lines ∧ Scoped (before ++ lines) more := by
  induction lines generalizing before with
  | nil => simp [Scoped]
  | cons line rest ih => simp [Scoped, ih, and_assoc]

/-- A line may use what is declared before it. -/
theorem scoped_line (huses : ∀ n, .use n ∈ line → DeclaredIn before [] n) (hline : KeepsOpen line) :
    Scoped before [line] := by
  refine ⟨fun start n stop heq => ?_, trivial⟩
  subst heq
  exact (huses n (List.mem_append_right _ (List.mem_cons_self ..))).inLine hline

/-- Lines without temps. -/
theorem scoped_of_not_use (h : ∀ line ∈ lines, ∀ n, .use n ∉ line) : Scoped before lines := by
  induction lines generalizing before with
  | nil => trivial
  | cons line rest ih =>
    rw [List.forall_mem_cons] at h
    refine ⟨fun start n stop heq => ?_, ih h.2⟩
    subst heq
    exact absurd (List.mem_append_right _ (List.mem_cons_self ..)) (h.1 n)

end

/-! ## Temps among the tokens -/

/-- The temp that a token uses is one of the operands. -/
def Token.UsesOf (stack : List Operand) : Token → Prop
  | .use n => .temp n ∈ stack
  | _ => True

instance (stack : List Operand) : Plain (Token.UsesOf stack) where
  plain token h := by
    cases token with
    | use => cases h
    | _ => trivial

/-- The token declares no temp. -/
def Token.DeclaresNone : Token → Prop
  | .declare _ => False
  | _ => True

instance : Plain Token.DeclaresNone where
  plain token h := by
    cases token with
    | declare => cases h
    | _ => trivial

theorem Operand.usesOf {stack : List Operand} (v : Operand) (hv : v ∈ stack) :
    Every (Token.UsesOf stack) v.tokens := by
  cases v with
  | temp n => exact every_cons hv every_nil
  | literal a => exact a.every (fun _ => trivial) (fun _ => trivial) fun _ => trivial

theorem Operand.declaresNone (v : Operand) : Every Token.DeclaresNone v.tokens := by
  cases v with
  | temp n => exact every_cons trivial every_nil
  | literal a => exact a.every (fun _ => trivial) (fun _ => trivial) fun _ => trivial

theorem Storage.declaresNone (place : Storage) : Every Token.DeclaresNone place.tokens := by
  cases place with
  | «local» => exact every_cons trivial (every_plain rfl (every_cons trivial every_nil))
  | global name => exact every_cons trivial every_nil

theorem Rhs.declaresNone (value : Rhs) : Every Token.DeclaresNone value.tokens := by
  cases value with
  | load place => exact place.declaresNone
  | send receiver message args block =>
    have hoption : ∀ (o : Option Operand) (other : String),
        Every Token.DeclaresNone (optionTokens o other) := fun o other =>
      every_optionTokens (fun v _ => v.declaresNone) other
    have hargs : Every Token.DeclaresNone (argTokens args) :=
      every_argTokens fun v _ => v.declaresNone
    exact every_plain rfl (every_append (hoption receiver "self") (every_plain rfl (every_cons
      trivial (every_plain rfl (every_cons trivial (every_plain rfl (every_plain rfl (every_plain rfl
        (every_append hargs (every_plain rfl (every_append (hoption block "rt_nil()")
          (every_of_isPlain rfl))))))))))))
  | yield args =>
    exact every_plain rfl (every_plain rfl (every_plain rfl (every_append
      (every_argTokens fun v _ => v.declaresNone) (every_of_isPlain rfl))))
  | closure f => exact every_plain rfl (every_cons trivial (every_of_isPlain rfl))
  | verbatim code => exact every_cons trivial every_nil

/-! ## Operands that are declared -/

/-- The temps among the operands are declared in these lines, in blocks that are still open. -/
def Held (before : List Line) (stack : List Operand) : Prop :=
  ∀ n, .temp n ∈ stack → DeclaredIn before [] n

/-- The statements use no temps but those of the operands `base` and their own, and leave those of
the operands `stack` declared. -/
def Flows (base : List Operand) (stmts : List Stmt) (stack : List Operand) : Prop :=
  ∀ k before, Held before base → Scoped before (Stmt.layouts k stmts) ∧
    Held (before ++ Stmt.layouts k stmts) stack

section

variable {before more : List Line} {base mid stack stack' : List Operand} {stmts rest : List Stmt}
  {s : Stmt} {v : Operand} {n : Nat}

theorem layouts_append (k : Nat) (a b : List Stmt) :
    Stmt.layouts k (a ++ b) = Stmt.layouts k a ++ Stmt.layouts k b := by
  induction a with
  | nil => simp [Stmt.layouts]
  | cons s rest ih => simp [Stmt.layouts, ih]

theorem layouts_singleton (k : Nat) (s : Stmt) : Stmt.layouts k [s] = Stmt.layout k s := by
  simp [Stmt.layouts]

/-- Operands stay declared while no brace is closed. -/
theorem Held.append (h : Held before base) (hmore : KeepsOpen more.flatten) :
    Held (before ++ more) base :=
  fun n hn => (h n hn).append hmore

theorem Held.layouts (h : Held before base) (k : Nat) (stmts : List Stmt) :
    Held (before ++ Stmt.layouts k stmts) base :=
  h.append (Stmt.balanced_layouts k stmts).keepsOpen

theorem flows_nil : Flows base [] base := fun _ _ h => ⟨trivial, by simpa [Stmt.layouts] using h⟩

/-- Statements that leave what the next ones need. -/
theorem Flows.append (h : Flows base stmts mid) (h' : Flows mid rest stack) :
    Flows base (stmts ++ rest) stack := by
  intro k before hbase
  obtain ⟨hscoped, hmid⟩ := h k before hbase
  obtain ⟨hscoped', hstack⟩ := h' k _ hmid
  rw [layouts_append]
  exact ⟨scoped_append.mpr ⟨hscoped, hscoped'⟩, by rwa [← List.append_assoc]⟩

/-- More may be declared before, and less be asked for behind. -/
theorem Flows.mono (h : Flows base stmts stack) {base' : List Operand}
    (hbase : ∀ n, .temp n ∈ base → .temp n ∈ base')
    (hstack : ∀ n, .temp n ∈ stack' → .temp n ∈ stack) : Flows base' stmts stack' := by
  intro k before hheld
  obtain ⟨hscoped, hleft⟩ := h k before fun n hn => hheld n (hbase n hn)
  exact ⟨hscoped, fun n hn => hleft n (hstack n hn)⟩

/-- What was declared before stays declared. -/
theorem Flows.frame (h : Flows base stmts stack) : Flows base stmts (stack ++ base) := by
  intro k before hbase
  obtain ⟨hscoped, hstack⟩ := h k before hbase
  refine ⟨hscoped, fun n hn => ?_⟩
  rcases List.mem_append.mp hn with hn | hn
  · exact hstack n hn
  · exact hbase.layouts k stmts n hn

/-- A statement on one line. -/
theorem flows_line (hs : s.isLine = true) (huses : Every (Token.UsesOf base) s.tokens)
    (hstack : ∀ n, .temp n ∈ stack → .temp n ∈ base ∨
      ∃ a b, s.tokens = a ++ .declare n :: b ∧ Balanced b) : Flows base [s] stack := by
  intro k before hbase
  rw [layouts_singleton, Stmt.layout_of_isLine hs]
  have hline : Balanced (.text (pad k) :: s.tokens) := balanced_cons rfl s.balanced_tokens
  constructor
  · refine scoped_line (fun n hn => hbase n (huses (.use n) ?_)) hline.keepsOpen
    exact (List.mem_cons.mp hn).resolve_left nofun
  · intro n hn
    rcases hstack n hn with hn | ⟨a, b, heq, hb⟩
    · exact (hbase n hn).append (by simpa using hline.keepsOpen)
    · rw [heq]
      exact declaredIn_of_declare (a := .text (pad k) :: a) hb.keepsOpen

/-- The lines with a condition use no temps but the condition. -/
theorem every_conditionLines (hv : v ∈ base) (k : Nat) :
    Every (Token.UsesOf base) (ifLine k v) ∧ Every (Token.UsesOf base) (testLine k v) :=
  ⟨every_plain rfl (every_plain rfl (every_append (v.usesOf hv) (every_of_isPlain rfl))),
    every_plain rfl (every_plain rfl (every_append (v.usesOf hv) (every_of_isPlain rfl)))⟩

/-- A conditional whose arms find the operands declared that it starts with. -/
theorem flows_ifElse {yes no : List Stmt} (hv : v ∈ base) (hyes : Flows base yes stack)
    (hno : Flows base no stack') : Flows base [.ifElse v yes no] base := by
  intro k before hbase
  have hshape : Stmt.layout k (.ifElse v yes no) = [ifLine k v] ++ Stmt.layouts (k + 1) yes ++
      [elseLine k] ++ Stmt.layouts (k + 1) no ++ [closeLine k] := by
    simp [Stmt.layout]
  have hif : KeepsOpen [ifLine k v].flatten := fun m => by
    rw [List.flatten_singleton, depth?_ifLine]
    rfl
  -- behind the first arm one block is open again, as before it
  have helse : KeepsOpen ([ifLine k v] ++ Stmt.layouts (k + 1) yes ++ [elseLine k]).flatten := by
    intro m
    simp only [List.flatten_append, List.flatten_singleton, depth?_append, depth?_ifLine,
      Option.bind_some, Stmt.balanced_layouts (k + 1) yes (m + 1)]
    rfl
  rw [layouts_singleton]
  refine ⟨?_, hbase.append (Stmt.balanced_layout k _).keepsOpen⟩
  rw [hshape]
  refine scoped_append.mpr ⟨scoped_append.mpr ⟨scoped_append.mpr ⟨scoped_append.mpr
    ⟨?_, ?_⟩, ?_⟩, ?_⟩, ?_⟩
  · exact scoped_line (fun n hn => hbase n ((every_conditionLines hv k).1 _ hn))
      (by simpa using hif)
  · exact (hyes (k + 1) _ (hbase.append hif)).1
  · exact scoped_of_not_use (by simp [elseLine])
  · exact (hno (k + 1) _ (hbase.append helse)).1
  · exact scoped_of_not_use (by simp [closeLine])

/-- A loop whose parts find the operands declared that it starts with. -/
theorem flows_loop {test body : List Stmt} (hv : v ∈ stack) (htest : Flows base test stack)
    (hbody : Flows base body stack') : Flows base [.loop test v body] base := by
  intro k before hbase
  have hshape : Stmt.layout k (.loop test v body) = [loopLine k] ++ Stmt.layouts (k + 1) test ++
      [testLine (k + 1) v] ++ Stmt.layouts (k + 1) body ++ [closeLine k] := by
    simp [Stmt.layout]
  have hloop : KeepsOpen [loopLine k].flatten := fun m => rfl
  have htestLine : KeepsOpen (testLine (k + 1) v) := (balanced_testLine (k + 1) v).keepsOpen
  have hbetween : KeepsOpen
      ([loopLine k] ++ Stmt.layouts (k + 1) test ++ [testLine (k + 1) v]).flatten := by
    rw [List.flatten_append, List.flatten_append]
    exact (hloop.append (Stmt.balanced_layouts _ _).keepsOpen).append (by simpa using htestLine)
  obtain ⟨hscoped, hstack⟩ := htest (k + 1) _ (hbase.append hloop)
  rw [layouts_singleton]
  refine ⟨?_, hbase.append (Stmt.balanced_layout k _).keepsOpen⟩
  rw [hshape]
  refine scoped_append.mpr ⟨scoped_append.mpr ⟨scoped_append.mpr ⟨scoped_append.mpr
    ⟨?_, hscoped⟩, ?_⟩, ?_⟩, ?_⟩
  · exact scoped_of_not_use (by simp [loopLine])
  · refine scoped_line (fun n hn => ?_) htestLine
    rw [← List.append_assoc]
    exact hstack n ((every_conditionLines hv (k + 1)).2 _ hn)
  · exact (hbody (k + 1) _ (hbase.append hbetween)).1
  · exact scoped_of_not_use (by simp [closeLine])

/-- The declaration of an operand that is not needed becomes a bare computation. -/
theorem flows_discard {value : Rhs} (h : Flows base (stmts ++ [Stmt.declare n value]) stack)
    (hn : .temp n ∉ stack) : Flows base (stmts ++ [Stmt.eval value]) stack := by
  intro k before hbase
  obtain ⟨hscoped, hheld⟩ := h k before hbase
  rw [layouts_append, layouts_singleton, Stmt.layout_of_isLine rfl] at hscoped hheld ⊢
  obtain ⟨hstmts, hline, -⟩ := scoped_append.mp hscoped
  have hbalanced : Balanced (.text (pad k) :: (Stmt.eval value).tokens) :=
    balanced_cons rfl (Stmt.balanced_tokens _)
  have hother : ∀ m, .temp m ∈ stack →
      .declare m ∉ .text (pad k) :: (Stmt.declare n value).tokens := by
    intro m hm hmem
    have hrest : Every Token.DeclaresNone (value.tokens ++ [.text ";"]) :=
      every_append value.declaresNone (every_of_isPlain rfl)
    simp only [Stmt.tokens, List.mem_cons, reduceCtorEq, Token.declare.injEq, false_or] at hmem
    rcases hmem with rfl | hmem
    · exact hn hm
    · exact hrest _ hmem
  constructor
  · refine scoped_append.mpr ⟨hstmts, scoped_line (fun m hm => ?_) hbalanced.keepsOpen⟩
    -- the computation uses what it used behind the declaration
    have hmem : .use m ∈ .text (pad k) :: (Stmt.declare n value).tokens := by
      simpa [Stmt.tokens] using hm
    obtain ⟨start, stop, heq⟩ := List.append_of_mem hmem
    exact (hline start m stop heq).of_inLine
  · intro m hm
    have hheld := hheld m hm
    rw [← List.append_assoc] at hheld ⊢
    exact (hheld.of_append (hother m hm)).append (by simpa using hbalanced.keepsOpen)

/-- Statements on one line each that declare nothing. -/
theorem flows_lines
    (h : ∀ s ∈ stmts, s.isLine = true ∧ Every (Token.UsesOf base) s.tokens) :
    Flows base stmts base := by
  induction stmts with
  | nil => exact flows_nil
  | cons s rest ih =>
    rw [List.forall_mem_cons] at h
    exact (flows_line h.1.1 h.1.2 fun n hn => .inl hn).append (ih h.2)

/-- Temps that are declared may be used from there on. -/
theorem flows_declareNil (temps : List Nat) (base : List Operand) :
    Flows base (temps.map .declareNil) (temps.map .temp ++ base) := by
  induction temps generalizing base with
  | nil => exact flows_nil
  | cons n rest ih =>
    have hfirst : Flows base [.declareNil n] (.temp n :: base) := by
      refine flows_line rfl (every_cons trivial (every_of_isPlain rfl)) ?_
      intro m hm
      rcases List.mem_cons.mp hm with hm | hm
      · cases hm
        exact .inr ⟨[], [.text " = rt_nil();"], rfl, fun _ => rfl⟩
      · exact .inl hm
    refine (hfirst.append (ih (.temp n :: base))).mono (fun _ hm => hm) fun m hm => ?_
    simp only [List.map_cons, List.cons_append, List.mem_cons, List.mem_append] at hm ⊢
    tauto

end

/-! ## Regions -/

section

variable {t : ScopeTree} {link : Linking} {i : Instruction} {seg : Segment} {r r' : Region}
  {d d' : Draft} {base : List Operand}

/-- A value that is computed may be used behind its declaration. -/
theorem flows_memoize (hr : Flows base r.statements r.stack) {value : Rhs} {below : List Operand}
    (huses : Every (Token.UsesOf r.stack) value.tokens)
    (hbelow : ∀ n, .temp n ∈ below → .temp n ∈ r.stack) (m : Nat) :
    Flows base ({ r with stack := below }.memoize m value).statements
      ({ r with stack := below }.memoize m value).stack := by
  show Flows base ({ r with stack := below }.emit (.declare m value)).statements (.temp m :: below)
  rw [Region.statements_emit]
  refine hr.append (flows_line rfl ?_ fun n hn => ?_)
  · exact every_cons trivial (every_plain rfl (every_append huses (every_of_isPlain rfl)))
  · rcases List.mem_cons.mp hn with hn | hn
    · cases hn
      exact .inr ⟨[], _, rfl, balanced_cons rfl (value.balanced.append fun _ => rfl)⟩
    · exact .inl (hbelow n hn)

/-- **An instruction uses only operands that are declared**, and so are those that it leaves. -/
theorem Acts.flows (h : Acts t link d i r r') (hr : Flows base r.statements r.stack) :
    Flows base r'.statements r'.stack := by
  cases h with
  | constant ha =>
    refine hr.mono (fun _ hn => hn) fun n hn => ?_
    exact (List.mem_cons.mp hn).resolve_left nofun
  | dup _ hs =>
    refine hr.mono (fun _ hn => hn) fun n hn => ?_
    rcases List.mem_cons.mp hn with hn | hn
    · rw [hn, hs]
      exact List.mem_cons_self ..
    · exact hn
  | pop _ hdiscard =>
    obtain ⟨v, below, hs⟩ := List.exists_cons_of_ne_nil (Region.ne_nil_of_discard hdiscard)
    obtain ⟨r₁, hr₁, hbelow, hcases⟩ := Region.exists_discard hs
    obtain rfl : r₁ = r' := Except.ok.inj ((hr₁ 0).symm.trans (hdiscard 0))
    have hrest : Flows base r.statements r₁.stack := hr.mono (fun _ hn => hn) fun n hn => by
      rw [hs]
      exact List.mem_cons_of_mem _ (hbelow ▸ hn)
    rcases hcases with heq | ⟨n, value, rest, -, hnot, hold, hnew⟩
    · unfold Region.statements at hrest ⊢
      rwa [heq]
    · unfold Region.statements at hrest ⊢
      rw [hold, List.reverse_cons] at hrest
      rw [hnew, List.reverse_cons]
      exact flows_discard hrest (hbelow ▸ hnot)
  | @compute value below hvalue =>
    obtain ⟨huses, hbelow⟩ := hvalue.every (P := Token.UsesOf r.stack)
      (fun _ _ _ _ => trivial) (fun _ _ _ => ⟨trivial, trivial⟩) (fun _ _ => trivial)
      fun v hv => v.usesOf hv
    exact flows_memoize hr huses (fun n hn => hbelow _ hn (.use n) (List.mem_cons_self ..)) _
  | @execute s below hs =>
    obtain ⟨huses, hbelow⟩ := hs.every (P := Token.UsesOf r.stack)
      (fun _ _ _ _ => trivial) (fun _ _ _ => ⟨trivial, trivial⟩) (fun _ _ => trivial)
      fun v hv => v.usesOf hv
    rw [Region.statements_emit]
    exact hr.append (flows_line hs.isLine huses fun n hn =>
      .inl (hbelow _ hn (.use n) (List.mem_cons_self ..)))

/-- The arms of a conditional, which assign the temps that they are merged into. -/
theorem flows_assignTop {arm : Region} {below : List Operand}
    (h : Flows below arm.statements arm.stack) {temps : List Nat}
    (hbase : ∀ n, .temp n ∈ below → .temp n ∈ base) (htemps : ∀ n ∈ temps, .temp n ∈ base) :
    Flows base (assignTop temps arm).statements (arm.stack ++ base) := by
  rw [statements_assignTop]
  refine (h.mono hbase fun _ hn => hn).frame.append (flows_lines fun s hs => ?_)
  obtain ⟨⟨n, v⟩, hmem, rfl⟩ := List.mem_map.mp hs
  obtain ⟨hn, hv⟩ := List.of_mem_zip hmem
  have hv : v ∈ arm.stack ++ base :=
    List.mem_append_left _ (List.mem_of_mem_take (List.mem_reverse.mp hv))
  refine ⟨rfl, every_cons ?_ (every_plain rfl (every_append (v.usesOf hv)
    (every_of_isPlain rfl)))⟩
  exact List.mem_append_right _ (htemps n hn)

/-- Behind a conditional the merged temps are declared, and nothing else of the arms is. -/
theorem flows_joined {v : Operand} {below : List Operand} {yes no : Region}
    (hr : Flows base r.statements (v :: below)) (hyes : Flows below yes.statements yes.stack)
    (hno : Flows below no.statements no.stack) (next : Nat) :
    Flows base ({ r with stack := below }.joined v next yes no).statements
      ({ r with stack := below }.joined v next yes no).stack := by
  let temps := mergeTemps next below yes no
  have hcode : ({ r with stack := below }.joined v next yes no).statements = r.statements ++
      (temps.map .declareNil ++ [.ifElse v (assignTop temps yes).statements
        (assignTop temps no).statements]) := by
    simp [Region.joined, Region.statements, temps]
  have hbelow : ∀ n, .temp n ∈ below → .temp n ∈ temps.map Operand.temp ++ v :: below := fun n hn =>
    List.mem_append_right _ (List.mem_cons_of_mem _ hn)
  have htemps : ∀ n ∈ temps, .temp n ∈ temps.map Operand.temp ++ v :: below := fun n hn =>
    List.mem_append_left _ (List.mem_map_of_mem hn)
  have hall := hr.append ((flows_declareNil temps (v :: below)).append (flows_ifElse
    (List.mem_append_right _ (List.mem_cons_self ..)) (flows_assignTop hyes hbelow htemps)
    (flows_assignTop hno hbelow htemps)))
  rw [hcode]
  refine hall.mono (fun _ hn => hn) fun n hn => ?_
  rcases List.mem_append.mp hn with hn | hn
  · exact List.mem_append_left _ (List.mem_reverse.mp hn)
  · exact hbelow n (List.mem_of_mem_drop hn)

/-- The function uses only temps that it declares. -/
def Function.DeclaresUses (f : Function) : Prop := Flows [] f.body []

/-- A body that starts from nothing uses what it declares itself. -/
theorem declaresUses_toFunction (h : Flows [] r.statements r.stack) {v : Operand}
    (hv : Every (Token.UsesOf r.stack) v.tokens) (name : FunctionName) (scope : ScopeId)
    (owned : Scope) : (r.toFunction name scope owned v).DeclaresUses := by
  show Flows [] (r.emit (.ret v)).statements []
  rw [Region.statements_emit]
  exact h.append (flows_line rfl (every_plain rfl (every_append hv (every_of_isPlain rfl))) nofun)

/-- **Generated code uses only temps that are declared**, where they are declared. -/
theorem Generates.flows (h : Generates t link seg r d r' d') {base : List Operand}
    (hr : Flows base r.statements r.stack) (hd : d.Each Function.DeclaresUses) :
    Flows base r'.statements r'.stack ∧ d'.Each Function.DeclaresUses := by
  induction h generalizing base with
  | nil => exact ⟨hr, hd⟩
  | plain ha _ ih => exact ih (ha.flows hr) (hd.of_functions_eq (Draft.functions_after _ _))
  | cond _ _ _ hs _ _ _ ihy ihn ihr =>
    obtain ⟨hyes, hd₁⟩ := ihy flows_nil hd
    obtain ⟨hno, hd₂⟩ := ihn flows_nil hd₁
    exact ihr (flows_joined (hs ▸ hr) hyes hno _) (hd₂.of_functions_eq rfl)
  | loop _ _ _ _ hs _ _ iht ihb ihr =>
    obtain ⟨htest, hd₁⟩ := iht flows_nil hd
    obtain ⟨hbody, hd₂⟩ := ihb flows_nil hd₁
    refine ihr ?_ hd₂
    rw [Region.statements_emit]
    exact hr.append (flows_loop (hs ▸ List.mem_cons_self ..) htest hbody)
  | @method _ _ _ _ _ r _ _ d _ _ _ _ _ name _ ref _ _ _ hs _ _ _ _ ihb ihr =>
    obtain ⟨hinner, hd₁⟩ := ihb flows_nil (hd.of_functions_eq rfl)
    have hv := Operand.usesOf _ (hs ▸ List.mem_cons_self ..)
    refine ihr ?_ ((hd₁.of_functions_eq rfl).addFunction (declaresUses_toFunction hinner hv _ _ _))
    show Flows base (r.emit (.defineMethod ref (.method d.nextFunction name))).statements
      (.literal (.sym ref) :: r.stack)
    rw [Region.statements_emit]
    refine hr.append (flows_line rfl ?_ fun n hn => .inl ?_)
    · exact every_cons trivial (every_of_isPlain rfl)
    · exact (List.mem_cons.mp hn).resolve_left nofun
  | @block _ _ _ _ _ _ _ _ d _ _ _ _ owned s _ _ _ hs _ _ _ ihb ihr =>
    obtain ⟨hinner, hd₁⟩ := ihb flows_nil (hd.of_functions_eq rfl)
    have hv := Operand.usesOf _ (hs ▸ List.mem_cons_self ..)
    have hunit := hd₁.addFunction
      (declaresUses_toFunction hinner hv (.block d.nextFunction) s owned)
    refine ihr (flows_memoize hr ?_ (fun _ hn => hn) _) (hunit.of_functions_eq rfl)
    exact every_plain rfl (every_cons trivial (every_of_isPlain rfl))

end

end StackCode.CUnit
