import StackCode.Text.DefaultIgnorable
import StackCode.Text.GraphemeExtend
import StackCode.Text.Unprintable

/-!
# Quoted text

The form in which listings and messages show a string: between double quotes, with short escapes
for the quote, the backslash and four controls, and with `\u` and the code point in hexadecimal for
every other character that a reader could not see or tell apart.
-/

namespace StackCode.Text

/-- The short escape of `c`: what follows the backslash. -/
def shortEscape? : Char → Option Char
  | '\x00' => some '0'
  | '\t' => some 't'
  | '\r' => some 'r'
  | '\n' => some 'n'
  | '"' => some '"'
  | '\\' => some '\\'
  | _ => none

/-- The halfwidth sound marks of Katakana. They extend a grapheme, but stand in a cell of their
own. -/
def isHalfwidthSoundMark (c : Char) : Bool := c = '\uff9e' || c = '\uff9f'

/-- Whether a reader could not see `c`, or not tell it from the character before it. -/
def isObscure (c : Char) : Bool :=
  isUnprintable c || isDefaultIgnorable c || (isGraphemeExtend c && ! isHalfwidthSoundMark c)

/-- One character of a quoted text. -/
def quoteChar (c : Char) : List Char :=
  match shortEscape? c with
  | some d => ['\\', d]
  | none =>
    if isObscure c then
      ['\\', 'u', '\x7b'] ++ Nat.toDigits 16 c.toNat ++ ['\x7d']
    else [c]

/-- The quoted form of `s`. -/
def quote (s : String) : String :=
  String.ofList ('"' :: s.toList.flatMap quoteChar ++ ['"'])

end StackCode.Text
