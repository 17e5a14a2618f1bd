/-!
# Texts inside C

How texts of a program appear in generated C: as string literals, as parts of identifiers, and in
comments.
-/

namespace StackCode.CUnit

/-- The octal digit `n`. -/
def octalDigit (n : Nat) : Char := Char.ofNat (48 + n % 8)

/-- One byte inside a string literal. Bytes that are not printable take three octal digits, so that
no digit after them is read as theirs; a question mark is escaped, because two of them can start a
trigraph. -/
def escapeByte (b : UInt8) : List Char :=
  match Char.ofNat b.toNat with
  | '"' => ['\\', '"']
  | '\\' => ['\\', '\\']
  | '\n' => ['\\', 'n']
  | '\t' => ['\\', 't']
  | '\r' => ['\\', 'r']
  | '?' => ['\\', '?']
  | c =>
    if 0x20 ≤ b ∧ b ≤ 0x7e then [c]
    else
      ['\\', octalDigit (b.toNat / 64), octalDigit (b.toNat / 8), octalDigit b.toNat]

/-- The string literal with the bytes of `s`. -/
def stringLiteral (s : String) : String :=
  String.ofList ('"' :: s.toUTF8.data.toList.flatMap escapeByte ++ ['"'])

/-- `name` as a part of an identifier: all but letters and digits become underscores. -/
def mangle (name : String) : String :=
  String.ofList (name.toList.map fun c => if c.isAlphanum then c else '_')

/-- Parts every end of a comment by a space. -/
def breakCommentEnds : List Char → List Char
  | '*' :: '/' :: rest => '*' :: ' ' :: '/' :: breakCommentEnds rest
  | c :: rest => c :: breakCommentEnds rest
  | [] => []

/-- A comment with this text. -/
def comment (text : String) : String :=
  "/* " ++ String.ofList (breakCommentEnds text.toList) ++ " */"

end StackCode.CUnit
