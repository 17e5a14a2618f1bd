import StackCode.Position

/-!
# Tokens

The words of the textual form of expression trees. A lexeme is a token together with the place of
its first character.
-/

namespace StackCode

/-- A word of the source text. -/
inductive Token where
  | integer (n : Int64)
  | string (s : String)
  /-- A bare word: the head of a form, a name, an operator or a `$global`. -/
  | atom (s : String)
  | lparen
  | rparen
  /-- A comment without its semicolon and without white space at its ends. -/
  | comment (s : String)
  | newline
  | eof
deriving DecidableEq, Repr, Inhabited

/-- A token and the place where it starts. -/
structure Lexeme where
  token : Token
  pos : Position
deriving DecidableEq, Repr, Inhabited

namespace Token

/-- The token as messages show it. -/
def text : Token → String
  | integer n => toString n.toInt
  | string s => "\"" ++ s ++ "\""
  | atom s => s
  | lparen => "("
  | rparen => ")"
  | comment s => "; " ++ s
  | newline => "\\n"
  | eof => "EOF"

/-- Whether the token carries meaning: comments and line ends only separate. -/
def isSignificant : Token → Bool
  | comment _ | newline => false
  | _ => true

end Token

end StackCode
