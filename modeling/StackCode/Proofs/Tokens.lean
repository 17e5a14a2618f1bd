import StackCode.CUnit.Basic

/-!
# The text of a unit, in tokens

Facts about generated C are facts about its text: about the names that occur in a line and about the
braces around it. A line is therefore cut into tokens. What a program has a part in has a shape of
its own: temps, places of variables, numbers of texts, names of functions, and the comments that
repeat a name of the program. All other C is fixed text. `Function.text_layout` says that the tokens
of a function, written one behind the other, are its lines.

Whether C finds these tokens in the text is another matter, because a comment may end earlier than
it seems to: see `Function.ReadAsLaidOut`.
-/

namespace StackCode.CUnit

/-- A piece of a line of C. -/
inductive Token where
  /-- C that is the same for all programs. -/
  | text (s : String)
  | number (n : Nat)
  | integer (n : Int64)
  /-- A comment with a name of the program. -/
  | comment (name : String)
  | opening
  | closing
  /-- The declaration of a temp. -/
  | declare (temp : Nat)
  /-- The name of a temp anywhere else. -/
  | use (temp : Nat)
  /-- The place of a variable, in the environment that is `depth` steps out. -/
  | slot (depth : Nat) (index : UInt64) (name : String)
  | symbol (s : Ref)
  | string (s : Ref)
  | global (s : Ref)
  /-- The start of a call by name, up to the receiver. -/
  | send
  /-- The number of the message in such a call. -/
  | message (s : Ref)
  /-- Makes a method of a function, under a name. -/
  | method (name : Ref) (f : FunctionName)
  /-- Makes a block of a function. -/
  | closure (f : FunctionName)
  /-- The name of a function at its head. -/
  | function (f : FunctionName)
  /-- C that is not known any better. -/
  | raw (s : String)
deriving DecidableEq, Repr

/-- The token in C. -/
def Token.code : Token → String
  | text s | raw s => s
  | number n => toString n
  | integer n => toString n.toInt
  | comment name => CUnit.comment name
  | opening => "\x7b"
  | closing => "\x7d"
  | declare n => String.join ["Value ", tempName n]
  | use n => tempName n
  | slot depth index _ => String.join
    [if depth = 0 then "env" else String.join ["rt_env_at(env, ", toString depth, ")"], "->vars[",
      toString index.toNat, "]"]
  | symbol s => String.join ["rt_sym(", s.code, ")"]
  | string s => String.join ["rt_str(", s.code, ")"]
  | global s => String.join ["rt_globals[", s.code, "]"]
  | send => "rt_send("
  | message s => s.code
  | method name f => String.join ["rt_define_method(", name.code, ", ", f.code]
  | closure f => String.join ["rt_closure_new(", f.code]
  | function f => f.code

/-- A line of C. -/
abbrev Line := List Token

/-- The text of a line. -/
def Line.text (line : Line) : String := String.join (line.map Token.code)

/-- Tokens one behind the other are texts one behind the other. -/
theorem Line.text_append (a b : Line) : text (a ++ b) = text a ++ text b := by
  unfold text
  rw [List.map_append]
  exact String.join_append

/-! ## Operands and computations -/

/-- A value that can be written more than once. -/
def Atom.tokens : Atom → Line
  | .int n =>
    if n = Int64.minValue then [.text "rt_int(INT64_MIN)"]
    else [.text "rt_int(INT64_C(", .integer n, .text "))"]
  | .str s => [.string s]
  | .sym s => [.symbol s]
  | .nil => [.text "rt_nil()"]
  | .bool b => [.text (if b then "rt_bool(1)" else "rt_bool(0)")]
  | .self => [.text "self"]
  | .arg index => [.text "rt_arg(argc, args, ", .number index.toNat, .text ")"]
  | .verbatim code => [.raw code]

/-- What stands for a value of the operand stack. -/
def Operand.tokens : Operand → Line
  | .literal a => a.tokens
  | .temp n => [.use n]

/-- The place of a variable. -/
def Storage.tokens : Storage → Line
  | .local depth slot name => [.slot depth slot name, .text " ", .comment name]
  | .global name => [.global name]

/-- Operands with commas between them. -/
def listTokens : List Operand → Line
  | [] => []
  | [v] => v.tokens
  | v :: rest => v.tokens ++ .text ", " :: listTokens rest

/-- Arguments. -/
def argTokens : List Operand → Line
  | [] => [.text "NULL"]
  | args => .text "(Value[])" :: .opening :: (listTokens args ++ [.closing])

/-- An operand, or what stands in its place. -/
def optionTokens (o : Option Operand) (other : String) : Line :=
  (o.map Operand.tokens).getD [.text other]

/-- What is computed once. -/
def Rhs.tokens : Rhs → Line
  | .load place => place.tokens
  | .send receiver message args block =>
    .send :: (optionTokens receiver "self" ++
      .text (if receiver.isSome then ", 1, " else ", 0, ") :: .message message :: .text " " ::
      .comment message.text :: .text ", " :: .number args.length :: .text ", " ::
      (argTokens args ++ .text ", " :: (optionTokens block "rt_nil()" ++ [.text ")"])))
  | .yield args =>
    .text "rt_yield(blk, " :: .number args.length :: .text ", " :: (argTokens args ++ [.text ")"])
  | .closure f => [.text "rt_proc(", .closure f, .text ", env, self, blk))"]
  | .verbatim code => [.raw code]

/-! ## Statements and functions -/

/-- Space before a line, in levels. -/
def pad : Nat → String
  | 0 => ""
  | k + 1 => pad k ++ "    "

/-- The tokens of a statement that takes one line; the others have none here. -/
def Stmt.tokens : Stmt → Line
  | .declare t value => .declare t :: .text " = " :: (value.tokens ++ [.text ";"])
  | .eval value => value.tokens ++ [.text ";"]
  | .declareNil t => [.declare t, .text " = rt_nil();"]
  | .assign t v => .use t :: .text " = " :: (v.tokens ++ [.text ";"])
  | .store place v => place.tokens ++ .text " = " :: (v.tokens ++ [.text ";"])
  | .defineMethod name f => [.method name f, .text ");"]
  | .checkArgs expected =>
    [.text "rt_check_args(argc, ", .number expected.toNat, .text ");"]
  | .ret v => .text "return " :: (v.tokens ++ [.text ";"])
  | .breakLoop => [.text "break;"]
  | .continueLoop => [.text "continue;"]
  | .exit => [.text "rt_exit();"]
  | .setVisibility .everyone => [.text "rt_visibility = RT_PUBLIC;"]
  | .setVisibility .selfOnly => [.text "rt_visibility = RT_PRIVATE;"]
  | .verbatim line => [.raw line]
  | .ifElse .. | .loop .. | .indented _ => []

/-- The line before the arms of a conditional, `k` levels deep. -/
def ifLine (k : Nat) (c : Operand) : Line :=
  .text (pad k) :: .text "if (rt_truthy(" :: (c.tokens ++ [.text ")) ", .opening])

/-- The line between the arms. -/
def elseLine (k : Nat) : Line := [.text (pad k), .closing, .text " else ", .opening]

/-- The line before a loop. -/
def loopLine (k : Nat) : Line := [.text (pad k), .text "while (1) ", .opening]

/-- The line that leaves a loop, between its test and its body. -/
def testLine (k : Nat) (c : Operand) : Line :=
  .text (pad k) :: .text "if (!rt_truthy(" :: (c.tokens ++ [.text ")) break;"])

/-- The line behind a conditional or a loop. -/
def closeLine (k : Nat) : Line := [.text (pad k), .closing]

mutual

/-- The lines of a statement, `k` levels deep. -/
def Stmt.layout (k : Nat) : Stmt → List Line
  | .ifElse c yes no =>
    ifLine k c :: (Stmt.layouts (k + 1) yes ++ elseLine k ::
      (Stmt.layouts (k + 1) no ++ [closeLine k]))
  | .loop test c body =>
    loopLine k :: (Stmt.layouts (k + 1) test ++ testLine (k + 1) c ::
      (Stmt.layouts (k + 1) body ++ [closeLine k]))
  | .indented lines => lines.map fun line => [.text (pad (k + 1)), .raw line]
  | s => [.text (pad k) :: s.tokens]

/-- The lines of statements, `k` levels deep. -/
def Stmt.layouts (k : Nat) : List Stmt → List Line
  | [] => []
  | s :: rest => Stmt.layout k s ++ Stmt.layouts k rest

end

/-- The first line of a function. -/
def Function.head (f : Function) : Line :=
  match f.name with
  | .main | .method .. => [.text "static Value ", .function f.name,
      .text "(Value self, int argc, Value *args, Closure *blk) ", .opening]
  | .block _ => [.text "static Value ", .function f.name,
      .text "(Closure *closure, int argc, Value *args) ", .opening]

/-- The lines that set the function's own variables up. -/
def Function.setup (f : Function) : List Line :=
  let env := match f.name with
    | .main | .method .. => [[.text "Env *env = rt_env_new(NULL, ", .number f.envSize, .text ");"]]
    | .block _ =>
      [[.text "Value self = closure->self;"], [.text "Closure *blk = closure->blk;"],
        [.text "Env *env = rt_env_new(closure->env, ", .number f.envSize, .text ");"]]
  env ++ [[.text "(void)self; (void)argc; (void)args; (void)blk; (void)env;"]]

/-- The lines of a function. -/
def Function.layout (f : Function) : List Line :=
  f.head :: (f.setup.map (.text (pad 1) :: ·) ++ Stmt.layouts 1 f.body ++ [[.closing]])

/-! ## The tokens are the text -/

section

open Line

theorem text_cons (token : Token) (line : Line) :
    text (token :: line) = token.code ++ text line := by
  unfold text
  rw [List.map_cons]
  exact String.join_cons

theorem text_nil : text [] = "" := rfl

theorem text_singleton (s : String) : text [.text s] = s := by
  rw [text_cons, text_nil, Token.code, String.append_empty]

theorem Atom.text_tokens (a : Atom) : text a.tokens = a.code := by
  cases a with
  | int n =>
    show text (if _ then _ else _) = if _ then _ else "rt_int(INT64_C(" ++ toString n.toInt ++ "))"
    split
    · exact text_singleton _
    · simp only [text_cons, text_nil, Token.code, String.append_assoc, String.append_empty]
  | str s =>
    show _ = "rt_str(" ++ s.code ++ ")"
    simp [Atom.tokens, text_cons, text_nil, Token.code, String.append_assoc]
  | sym s =>
    show _ = "rt_sym(" ++ s.code ++ ")"
    simp [Atom.tokens, text_cons, text_nil, Token.code, String.append_assoc]
  | arg index =>
    show _ = "rt_arg(argc, args, " ++ toString index.toNat ++ ")"
    simp [Atom.tokens, text_cons, text_nil, Token.code, String.append_assoc]
  | nil | bool | self | verbatim => exact text_singleton _

/-- An operand is written as its tokens are. -/
theorem Operand.text_tokens (v : Operand) : text v.tokens = v.code := by
  cases v with
  | literal a => exact a.text_tokens
  | temp n => simp [Operand.tokens, text_cons, text_nil, Token.code, Operand.code]

theorem Storage.text_tokens (place : Storage) : text place.tokens = place.code := by
  have hspace : ∀ s, "] " ++ s = "]" ++ (" " ++ s) := fun s => by
    rw [← String.append_assoc]
    rfl
  cases place <;> simp [Storage.tokens, text_cons, text_nil, Token.code, Storage.code,
    String.append_assoc, hspace]

/-- Arguments are separated by commas. -/
theorem text_listTokens (args : List Operand) :
    text (listTokens args) = ", ".intercalate (args.map Operand.code) := by
  induction args with
  | nil => rfl
  | cons v rest ih =>
    cases rest with
    | nil => simp [listTokens, Operand.text_tokens]
    | cons w rest =>
      rw [listTokens, text_append, text_cons, ih, Operand.text_tokens]
      · simp [Token.code, String.intercalate_cons_cons, String.append_assoc]
      · exact nofun

/-- An array of arguments is written as its tokens are. -/
theorem text_argTokens (args : List Operand) : text (argTokens args) = argArray args := by
  cases args with
  | nil => rfl
  | cons v rest =>
    rw [argTokens, argArray, text_cons, text_cons, text_append, text_listTokens, text_cons,
      text_nil]
    · simp only [Token.code, ← String.append_assoc, String.append_empty]
      rfl
    · exact List.cons_ne_nil v rest
    · exact List.cons_ne_nil v rest

theorem text_optionTokens (o : Option Operand) (other : String) :
    text (optionTokens o other) = (o.map Operand.code).getD other := by
  cases o <;> simp [optionTokens, text_cons, text_nil, Token.code, Operand.text_tokens]

/-- A computation is written as its tokens are. -/
theorem Rhs.text_tokens (value : Rhs) : text value.tokens = value.code := by
  cases value with
  | load place => exact place.text_tokens
  | send receiver message args block =>
    have hflag : (if receiver.isSome then ", 1, " else ", 0, ") =
        ", " ++ (if receiver.isSome then "1" else "0") ++ ", " := by
      cases receiver <;> rfl
    show _ = "rt_send(" ++ (receiver.map Operand.code).getD "self" ++ ", "
      ++ (if receiver.isSome then "1" else "0") ++ ", " ++ message.code ++ " "
      ++ comment message.text ++ ", " ++ toString args.length ++ ", " ++ argArray args ++ ", "
      ++ (block.map Operand.code).getD "rt_nil()" ++ ")"
    simp only [Rhs.tokens, hflag, text_cons, text_nil, text_append, text_argTokens,
      text_optionTokens, Token.code, String.append_assoc, String.append_empty]
  | yield args =>
    show _ = "rt_yield(blk, " ++ toString args.length ++ ", " ++ argArray args ++ ")"
    simp only [Rhs.tokens, text_cons, text_nil, text_append, text_argTokens, Token.code,
      String.append_assoc, String.append_empty]
  | closure f =>
    show _ = "rt_proc(" ++ "rt_closure_new(" ++ f.code ++ ", env, self, blk))"
    simp only [Rhs.tokens, text_cons, text_nil, Token.code, String.join_cons, String.join_nil,
      String.append_assoc, String.append_empty]
  | verbatim code => exact text_singleton _

/-- Whether a statement takes one line. -/
def Stmt.isLine : Stmt → Bool
  | .ifElse .. | .loop .. | .indented _ => false
  | _ => true

/-- A statement without braces is one line. -/
theorem Stmt.text_tokens {s : Stmt} (hs : s.isLine = true) : s.lines = [text s.tokens] := by
  cases s with
  | ifElse | loop | indented => cases hs
  | setVisibility v =>
    cases v <;> simp only [Stmt.lines, Stmt.tokens, text_singleton]
  | _ =>
    simp only [Stmt.lines, Stmt.tokens, text_cons, text_nil, text_append, Operand.text_tokens,
      Rhs.text_tokens, Storage.text_tokens, Token.code, String.join_cons, String.join_nil,
      String.append_assoc, String.append_empty]

/-- A statement without braces is laid out behind the padding. -/
theorem Stmt.layout_of_isLine {s : Stmt} (hs : s.isLine = true) (k : Nat) :
    Stmt.layout k s = [.text (pad k) :: s.tokens] := by
  cases s with
  | ifElse | loop | indented => cases hs
  | _ => simp only [Stmt.layout]

/-- Indenting is padding by one more step. -/
theorem pad_indent (k : Nat) (line : String) : pad k ++ indent line = pad (k + 1) ++ line := by
  show pad k ++ ("    " ++ line) = pad k ++ "    " ++ line
  rw [String.append_assoc]

theorem map_indent (k : Nat) (lines : List String) :
    (lines.map indent).map (pad k ++ ·) = lines.map (pad (k + 1) ++ ·) := by
  rw [List.map_map]
  exact List.map_congr_left fun line _ => pad_indent k line

mutual

/-- The lines of a statement are its tokens. -/
theorem Stmt.text_layout (k : Nat) (s : Stmt) :
    (Stmt.layout k s).map text = s.lines.map (pad k ++ ·) := by
  by_cases hs : s.isLine = true
  · rw [Stmt.layout_of_isLine hs, Stmt.text_tokens hs, List.map_singleton, List.map_singleton,
      text_cons]
    rfl
  · cases s with
    | ifElse c yes no =>
      simp only [Stmt.layout, Stmt.lines, List.map_append, List.map_cons, List.map_nil, map_indent,
        List.append_assoc, List.cons_append, List.nil_append, Stmt.text_layouts (k + 1) yes,
        Stmt.text_layouts (k + 1) no, ifLine, elseLine, closeLine, text_cons, text_nil, text_append,
        Operand.text_tokens, Token.code, String.append_assoc, String.append_empty]
      rfl
    | loop test c body =>
      simp only [Stmt.layout, Stmt.lines, List.map_append, List.map_cons, List.map_nil, map_indent,
        List.append_assoc, List.cons_append, List.nil_append, Stmt.text_layouts (k + 1) test,
        Stmt.text_layouts (k + 1) body, loopLine, testLine, closeLine, pad_indent, text_cons,
        text_nil, text_append, Operand.text_tokens, Token.code, String.append_assoc,
        String.append_empty]
      rfl
    | indented lines =>
      rw [Stmt.layout, Stmt.lines, map_indent, List.map_map]
      refine List.map_congr_left fun line _ => ?_
      exact (text_cons _ _).trans (congrArg (pad (k + 1) ++ ·) (text_singleton line))
    | _ => exact absurd rfl hs

/-- The lines of statements are their tokens. -/
theorem Stmt.text_layouts (k : Nat) (stmts : List Stmt) :
    (Stmt.layouts k stmts).map text = (Stmt.block stmts).map (pad k ++ ·) := by
  cases stmts with
  | nil => simp only [Stmt.layouts, Stmt.block, List.map_nil]
  | cons s rest =>
    simp only [Stmt.layouts, Stmt.block, List.map_append, Stmt.text_layout k s,
      Stmt.text_layouts k rest]

end

/-- The first line of a function is its signature and a brace. -/
theorem Function.text_head (f : Function) : text f.head = f.signature ++ " \x7b" := by
  unfold Function.head Function.signature
  cases f.name <;>
    simp [text_cons, text_nil, Token.code, String.append_assoc]

/-- The lines before the body are the same for all functions of a kind. -/
theorem Function.text_setup (f : Function) : f.setup.map text = f.opening := by
  unfold Function.setup Function.opening
  cases f.name <;>
    simp [text_cons, text_nil, Token.code, String.append_assoc]

/-- **The lines of a function are its tokens.** -/
theorem Function.text_layout (f : Function) : f.layout.map text = f.lines := by
  have hpad : ∀ line, pad 1 ++ line = indent line := fun line => by
    rw [show pad 1 = "    " from rfl]
    rfl
  have hsetup : (f.setup.map (.text (pad 1) :: ·)).map text = f.opening.map indent := by
    rw [← f.text_setup, List.map_map, List.map_map]
    exact List.map_congr_left fun line _ => (text_cons _ _).trans (hpad _)
  have hbody : (Stmt.block f.body).map (pad 1 ++ ·) = (Stmt.block f.body).map indent :=
    List.map_congr_left fun line _ => hpad line
  rw [Function.layout, Function.lines, List.map_cons, List.map_append, List.map_append, hsetup,
    Stmt.text_layouts, hbody, f.text_head, List.map_append]
  rfl

end

/-! ## Properties of all tokens -/

/-- All tokens of the line have the property. -/
def Every (P : Token → Prop) (line : Line) : Prop := ∀ token ∈ line, P token

/-- Whether the token is neither a temp nor a comment, and refers to nothing. -/
def Token.isPlain : Token → Bool
  | .text _ | .number _ | .integer _ | .opening | .closing | .send | .function _ => true
  | _ => false

/-- A property of temps, comments and references: all other tokens have it. -/
class Plain (P : Token → Prop) : Prop where
  plain : ∀ token, token.isPlain = true → P token

/-- A property of comments and references: all other tokens have it. -/
class PlainTemps (P : Token → Prop) : Prop extends Plain P where
  declare : ∀ n, P (.declare n)
  use : ∀ n, P (.use n)

section

variable {P : Token → Prop} {a b : Line}

theorem every_nil : Every P [] := fun _ h => nomatch h

theorem every_cons {token : Token} (h : P token) (hb : Every P b) : Every P (token :: b) :=
  List.forall_mem_cons.mpr ⟨h, hb⟩

/-- What holds of all tokens of two lines holds of the line that they make. -/
theorem every_append (ha : Every P a) (hb : Every P b) : Every P (a ++ b) :=
  List.forall_mem_append.mpr ⟨ha, hb⟩

variable [Plain P]

/-- A plain token has whatever all plain tokens have. -/
theorem every_plain {token : Token} (h : token.isPlain = true) (hb : Every P b) :
    Every P (token :: b) :=
  every_cons (Plain.plain token h) hb

/-- A line without temps, comments and references. -/
theorem every_of_isPlain {line : Line} (h : line.all Token.isPlain = true) : Every P line :=
  fun token htoken => Plain.plain token (List.all_eq_true.mp h token htoken)

/-- A constant is a text, a symbol, C from elsewhere or plain. -/
theorem Atom.every (a : Atom) (hstring : ∀ s, P (.string s)) (hsymbol : ∀ s, P (.symbol s))
    (hraw : ∀ s, P (.raw s)) : Every P a.tokens := by
  cases a with
  | int n =>
    show Every P (if _ then _ else _)
    split <;> exact every_of_isPlain rfl
  | str s => exact every_cons (hstring s) every_nil
  | sym s => exact every_cons (hsymbol s) every_nil
  | verbatim code => exact every_cons (hraw code) every_nil
  | nil | bool | self | arg => exact every_of_isPlain rfl

/-- What holds in every argument holds in the list. -/
theorem every_listTokens {args : List Operand} (h : ∀ v ∈ args, Every P v.tokens) :
    Every P (listTokens args) := by
  induction args with
  | nil => exact every_nil
  | cons v rest ih =>
    rw [List.forall_mem_cons] at h
    cases rest with
    | nil => exact h.1
    | cons w rest => exact every_append h.1 (every_plain rfl (ih h.2))

theorem every_argTokens {args : List Operand} (h : ∀ v ∈ args, Every P v.tokens) :
    Every P (argTokens args) := by
  cases args with
  | nil => exact every_plain rfl every_nil
  | cons v rest =>
    refine every_plain rfl (every_plain rfl (every_append (every_listTokens h) ?_))
    exact every_plain rfl every_nil

theorem every_optionTokens {o : Option Operand} (h : ∀ v ∈ o, Every P v.tokens) (other : String) :
    Every P (optionTokens o other) := by
  cases o with
  | none => exact every_plain rfl every_nil
  | some v => exact h v rfl

/-- A program has no part in the first line of a function but its name. -/
theorem Function.every_head (f : Function) : Every P f.head := by
  unfold Function.head
  cases f.name <;> exact every_of_isPlain rfl

theorem Function.every_setup (f : Function) : ∀ line ∈ f.setup, Every P line := by
  have hplain : f.setup.all (·.all Token.isPlain) = true := by
    unfold Function.setup
    cases f.name <;> rfl
  exact fun line hline => every_of_isPlain (List.all_eq_true.mp hplain line hline)

end

end StackCode.CUnit
