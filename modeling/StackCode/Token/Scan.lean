import StackCode.ReadError
import StackCode.Text.Space

/-!
# Scanning

From text to lexemes. Blanks (space, tab, carriage return) separate words and are dropped; line
ends and comments become tokens of their own, so that nothing else of the text is lost.

Every lexeme takes at least one character, so the length of the text bounds the number of words:
`scanFrom` counts it down, and with nothing left to count there is nothing left to read.
-/

namespace StackCode.Token

open Text

/-- A character that separates words without being one. -/
def isBlank (c : Char) : Bool :=
  c = ' ' || c = '\t' || c = '\r'

/-- A character that may stand in a bare word. -/
def isAtomChar (c : Char) : Bool :=
  !isSpace c && c ≠ '(' && c ≠ ')' && c ≠ '"' && c ≠ ';'

/-- A character of a number after its sign: underscores only group the digits. -/
def isNumberChar (c : Char) : Bool :=
  c.isDigit || c = '_'

/-- The character that a backslash and `c` stand for in a string literal. -/
def unescape? : Char → Option Char
  | 'n' => some '\n'
  | 't' => some '\t'
  | 'r' => some '\r'
  | '\\' => some '\\'
  | '"' => some '"'
  | _ => none

/-- The number with these decimal digits. -/
def decimal (digits : List Char) : Nat :=
  digits.foldl (fun n d => 10 * n + (d.toNat - '0'.toNat)) 0

/-- The integer `n`, when 64 bits hold it. -/
def int64? (n : Int) : Option Int64 :=
  if Int64.minValue.toInt ≤ n ∧ n ≤ Int64.maxValue.toInt then some (Int64.ofInt n) else none

/-- Reads a string literal after its opening quote, which stands at `quote`. The characters read so
far are in `acc`, the last one first. Gives the literal's characters, the place after it, and the
rest of the text. -/
def scanString (quote : Position) :
    Position → List Char → List Char → Except ReadError (List Char × Position × List Char)
  | _, [], _ => .error ⟨.unterminatedString, quote⟩
  | pos, '"' :: rest, acc => .ok (acc.reverse, pos.next '"', rest)
  | pos, ['\\'], _ => .error ⟨.endInEscape, pos.next '\\'⟩
  | pos, '\\' :: c :: rest, acc =>
    match unescape? c with
    | some d => scanString quote ((pos.next '\\').next c) rest (d :: acc)
    | none => .error ⟨.unknownEscape c, pos.next '\\'⟩
  | pos, c :: rest, acc => scanString quote (pos.next c) rest (c :: acc)

/-- Reads the number at the start of `text`, which begins with a digit or with a sign before one. -/
def scanNumber (pos : Position) (text : List Char) :
    Except ReadError (Token × Position × List Char) :=
  let (sign, body) : List Char × List Char := match text with
    | '-' :: body => (['-'], body)
    | body => ([], body)
  let lexeme := body.takeWhile isNumberChar
  let digits := lexeme.filter Char.isDigit
  let n : Int := if sign.isEmpty then decimal digits else -(decimal digits : Int)
  match int64? n with
  | some value =>
    .ok (.integer value, (pos.advance sign).advance lexeme, body.dropWhile isNumberChar)
  | none => .error ⟨.invalidInteger (String.ofList (sign ++ digits)), pos⟩

/-- Reads the word that starts with `c` at `pos`, where `c` is no blank. Gives its token, the place
after it, and the rest of the text. -/
def scanWord (pos : Position) (c : Char) (rest : List Char) :
    Except ReadError (Token × Position × List Char) :=
  if c = '\n' then .ok (.newline, pos.next c, rest)
  else if c = ';' then
    let body := rest.takeWhile (· ≠ '\n')
    .ok (.comment (String.ofList (trimSpace body)), pos.advance (c :: body),
      rest.dropWhile (· ≠ '\n'))
  else if c = '"' then do
    let (cs, pos', rest') ← scanString pos (pos.next c) rest []
    .ok (.string (String.ofList cs), pos', rest')
  else if c = '(' then .ok (.lparen, pos.next c, rest)
  else if c = ')' then .ok (.rparen, pos.next c, rest)
  else if c.isDigit || (c = '-' && rest.head?.any Char.isDigit) then scanNumber pos (c :: rest)
  else if isAtomChar c then
    let word := (c :: rest).takeWhile isAtomChar
    .ok (.atom (String.ofList word), pos.advance word, (c :: rest).dropWhile isAtomChar)
  else .error ⟨.unexpectedChar c, pos⟩

/-- Reads at most `n` words of `text`, which starts at `pos`, and then the end of the text. The
lexemes read so far are in `acc`, the last one first. -/
def scanFrom : Nat → Position → List Char → List Lexeme → Except ReadError (List Lexeme)
  | 0, pos, _, acc => .ok (⟨.eof, pos⟩ :: acc).reverse
  | n + 1, pos, text, acc =>
    let here := pos.advance (text.takeWhile isBlank)
    match text.dropWhile isBlank with
    | [] => .ok (⟨.eof, here⟩ :: acc).reverse
    | c :: rest =>
      match scanWord here c rest with
      | .ok (token, next, rest') => scanFrom n next rest' (⟨token, here⟩ :: acc)
      | .error e => .error e

/-- The lexemes of a text, the last of which is the end of the text. -/
def scan (source : String) : Except ReadError (List Lexeme) :=
  let text := source.toList
  scanFrom text.length .start text []

/-- The lexemes of a text that carry meaning. -/
def scanSignificant (source : String) : Except ReadError (List Lexeme) :=
  (scan source).map (·.filter (·.token.isSignificant))

end StackCode.Token
