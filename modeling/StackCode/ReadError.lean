import StackCode.Token.Basic

/-!
# Reading errors

Why a text is refused, and where. The first three groups of causes belong to the words of the text,
the others to its forms.
-/

namespace StackCode

/-- Why a text is refused. -/
inductive ReadError.Cause where
  | unknownEscape (c : Char)
  | endInEscape
  | unterminatedString
  /-- The digits do not fit a 64-bit signed integer. -/
  | invalidInteger (digits : String)
  | unexpectedChar (c : Char)
  | expectedOpen (found : Token)
  | endBeforeOpen
  /-- The text ends where the form with this head should close. -/
  | endBeforeClose (head : String)
  | expectedClose (found : Token) (head : String)
  /-- The text ends inside a sequence of forms. -/
  | endInSequence
  /-- A bare word was expected; `what` says which. -/
  | expectedWord (what : String)
  | expectedArgs (head : String)
  | expectedInteger
  | expectedString
  /-- A block was attached to something that takes none. -/
  | expectedCall (kind : String)
  | unknownForm (head : String)
  | invalidGlobal (name : String)
deriving DecidableEq, Repr, Inhabited

/-- A refusal: its cause and the place it points at. -/
structure ReadError where
  cause : ReadError.Cause
  pos : Position
deriving DecidableEq, Repr, Inhabited

namespace ReadError

/-- The wording of a cause. -/
def Cause.text : Cause → String
  | unknownEscape c => "unknown escape sequence: \\" ++ c.toString
  | endInEscape => "unexpected EOF in escape sequence"
  | unterminatedString => "unterminated string literal"
  | invalidInteger digits => "invalid integer: " ++ digits
  | unexpectedChar c => "unexpected character: '" ++ c.toString ++ "'"
  | expectedOpen found => "expected '(', found " ++ found.text
  | endBeforeOpen => "unexpected end of input, expected '('"
  | endBeforeClose head => "unexpected EOF, expected ')' to close (" ++ head
  | expectedClose found head =>
    "unexpected " ++ found.text ++ " in (" ++ head ++ " ...), expected ')'"
  | endInSequence => "unexpected EOF, expected ')'"
  | expectedWord what => "expected " ++ what
  | expectedArgs head => "expected (args ...), found (" ++ head ++ " ...)"
  | expectedInteger => "(lit ...) expects an integer"
  | expectedString => "(str ...) expects a string literal"
  | expectedCall kind => "(iter ...) expects a call, found (" ++ kind ++ " ...)"
  | unknownForm head => "unknown form (" ++ head ++ " ...)"
  | invalidGlobal name => "global names start with '$', got " ++ name

/-- `line:column: wording`. -/
def message (e : ReadError) : String :=
  e.pos.text ++ ": " ++ e.cause.text

end ReadError

end StackCode
