import StackCode.Expr.Basic
import StackCode.Token.Scan

/-!
# Reading expressions

From lexemes to expressions, one form at a time and without looking back. A bare word `nil` stands
for an absent receiver or branch, while the form `(nil)` is the value nil.

## Bounds

Every form opens with a parenthesis, so the number of lexemes bounds both the depth of a form and
the length of a sequence. `readExpr` and the two sequence readers count such a bound down; with no
lexeme left they meet the end of the input.
-/

namespace StackCode

/-- The lexemes still to be read, and the place of the last one read. -/
structure Cursor where
  rest : List Lexeme
  last : Option Position := none
deriving DecidableEq, Repr, Inhabited

namespace Cursor

/-- The place that an error points at: the next lexeme, else the last one read. -/
def here : Cursor → Position
  | ⟨x :: _, _⟩ => x.pos
  | ⟨[], some p⟩ => p
  | ⟨[], none⟩ => .start

/-- The next token. -/
def token? (c : Cursor) : Option Token :=
  c.rest.head?.map (·.token)

/-- The cursor behind the next lexeme. -/
def skip : Cursor → Cursor
  | ⟨x :: rest, _⟩ => ⟨rest, some x.pos⟩
  | c => c

end Cursor

/-- A reader takes lexemes from the front of the cursor, or refuses. -/
abbrev Reader := StateT Cursor (Except ReadError)

namespace Reader

/-- Refuses at the current place. -/
def fail {α : Type} (cause : ReadError.Cause) : Reader α :=
  fun c => .error ⟨cause, c.here⟩

/-- The next token, which is left in place. -/
def peek : Reader (Option Token) :=
  fun c => .ok (c.token?, c)

/-- The next token, which is taken. -/
def take : Reader (Option Token) :=
  fun c => .ok (c.token?, c.skip)

/-- Whether the next token closes a form. -/
def atClose : Reader Bool :=
  return (← peek) = some .rparen

/-- Whether the input ends here. -/
def atEnd : Reader Bool :=
  return match ← peek with
  | none | some .eof => true
  | some _ => false

/-- Takes an opening parenthesis. -/
def openForm : Reader Unit := do
  match ← peek with
  | some .lparen => discard take
  | some found => fail (.expectedOpen found)
  | none => fail .endBeforeOpen

/-- Takes the parenthesis that closes the form with this head. -/
def closeForm (head : String) : Reader Unit := do
  match ← peek with
  | some .rparen => discard take
  | some .eof | none => fail (.endBeforeClose head)
  | some found => fail (.expectedClose found head)

/-- Takes a bare word; `what` names it in the refusal. -/
def word (what : String) : Reader String := do
  match ← peek with
  | some (.atom name) => do
    discard take
    return name
  | _ => fail (.expectedWord what)

/-- Takes the name of a global variable. -/
def globalName : Reader String := do
  let name ← word "global name"
  if name.toList.head? = some '$' then return name else fail (.invalidGlobal name)

/-- Takes items up to a closing parenthesis, at most `n` and one. -/
def untilClose {α : Type} (item : Reader α) : Nat → List α → Reader (List α)
  | 0, acc => return (← item) :: acc |>.reverse
  | n + 1, acc => do
    if ← atClose then return acc.reverse else untilClose item n ((← item) :: acc)

/-- Takes items up to the end of the input, at most `n`. -/
def untilEnd {α : Type} (item : Reader α) : Nat → List α → Reader (List α)
  | 0, acc => return acc.reverse
  | n + 1, acc => do
    if ← atEnd then return acc.reverse else untilEnd item n ((← item) :: acc)

/-- Takes `(args NAME...)`. -/
def params (n : Nat) : Reader (List String) := do
  openForm
  let head ← word "'args'"
  if head ≠ "args" then fail (.expectedArgs head)
  let names ← untilClose (word "parameter name") n []
  closeForm "args"
  return names

/-- Takes forms up to a closing parenthesis. -/
def sequence (expr : Reader Expr) (n : Nat) : Reader (List Expr) :=
  untilClose (do if ← atEnd then fail .endInSequence else expr) n []

/-- Takes the word `nil` as nothing, or else a form. -/
def optional (expr : Reader Expr) : Reader (Option Expr) := do
  if (← peek) = some (.atom "nil") then
    discard take
    return none
  else some <$> expr

/-- Takes a form unless the enclosing one closes here. -/
def trailing (expr : Reader Expr) : Reader (Option Expr) := do
  if ← atClose then return none else some <$> expr

/-- Takes what follows the head of a form, up to its closing parenthesis. Inner forms are read by
`expr`. -/
def formTail (expr : Reader Expr) (n : Nat) : String → Reader Expr
  | "lit" => do
    match ← take with
    | some (.integer k) => return .int k
    | _ => fail .expectedInteger
  | "str" => do
    match ← take with
    | some (.string s) => return .str s
    | _ => fail .expectedString
  | "sym" => return .sym (← word "symbol name")
  | "nil" => return .nil
  | "true" => return .bool true
  | "false" => return .bool false
  | "self" => return .self
  | "lvar" => return .var (← word "variable name")
  | "lasgn" => return .assign (← word "variable name") (← expr)
  | "gvar" => return .gvar (← globalName)
  | "gasgn" => return .gassign (← globalName) (← expr)
  | "call" => return .call (← optional expr) (← word "method name") (← sequence expr n)
  | "iter" => do
    let call ← expr
    let names ← params n
    let body ← sequence expr n
    match call with
    | .call receiver name args => return .iter receiver name args names body
    | other => fail (.expectedCall other.kind)
  | "yield" => return .yield (← sequence expr n)
  | "if" => do
    let test ← expr
    let yes ← optional expr
    if ← atClose then return .cond test yes none else return .cond test yes (← optional expr)
  | "while" => return .loop (← expr) (← sequence expr n)
  | "and" => return .conj (← expr) (← expr)
  | "or" => return .disj (← expr) (← expr)
  | "not" => return .neg (← expr)
  | "block" => return .seq (← sequence expr n)
  | "return" => return .ret (← trailing expr)
  | "break" => return .brk
  | "next" => return .next (← trailing expr)
  | "defn" => return .method (← word "method name") (← params n) (← sequence expr n)
  | head => fail (.unknownForm head)

/-- Takes one form, of depth at most `n`. -/
def readExpr : Nat → Reader Expr
  | 0 => fail .endBeforeOpen
  | n + 1 => do
    openForm
    let head ← word "form name"
    let e ← formTail (readExpr n) n head
    closeForm head
    return e

end Reader

namespace Expr

/-- The forms of a list of lexemes, up to the end of the input. -/
def ofLexemes (lexemes : List Lexeme) : Except ReadError (List Expr) :=
  let significant := lexemes.filter (·.token.isSignificant)
  let n := significant.length
  (·.1) <$> (Reader.untilEnd (Reader.readExpr n) n []).run ⟨significant, none⟩

/-- The program that a text denotes: the sequence of its forms. -/
def read (source : String) : Except ReadError Expr := do
  let lexemes ← Token.scan source
  return .seq (← ofLexemes lexemes)

end Expr

end StackCode
