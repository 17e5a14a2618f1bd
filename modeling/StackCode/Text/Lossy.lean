/-!
# Text from any bytes

Bytes are read as UTF-8. Where they are none, one replacement character stands for the longest start
of a character that can be seen there, or for a single byte.
-/

namespace StackCode.Text

/-- The bytes that may follow this first byte of a character, and how many more follow after that;
none when no longer character starts so. -/
def secondByte? (first : UInt8) : Option (UInt8 × UInt8 × Nat) :=
  if 0xc2 ≤ first ∧ first ≤ 0xdf then some (0x80, 0xbf, 0)
  else if first = 0xe0 then some (0xa0, 0xbf, 1)
  else if first = 0xed then some (0x80, 0x9f, 1)
  else if 0xe1 ≤ first ∧ first ≤ 0xef then some (0x80, 0xbf, 1)
  else if first = 0xf0 then some (0x90, 0xbf, 2)
  else if first = 0xf4 then some (0x80, 0x8f, 2)
  else if 0xf1 ≤ first ∧ first ≤ 0xf3 then some (0x80, 0xbf, 2)
  else none

/-- Takes up to `n` bytes that continue a character. -/
def continuation : Nat → List UInt8 → List UInt8
  | n + 1, b :: rest => if 0x80 ≤ b ∧ b ≤ 0xbf then b :: continuation n rest else []
  | _, _ => []

/-- The bytes at the front that start one character, or one byte. -/
def firstPiece : List UInt8 → List UInt8
  | [] => []
  | [b] => [b]
  | b :: c :: rest =>
    match secondByte? b with
    | some (low, high, more) =>
      if low ≤ c ∧ c ≤ high then b :: c :: continuation more rest else [b]
    | none => [b]

/-- Reads the pieces of `bytes`, at most `n` of them. -/
def lossyPieces : Nat → List UInt8 → List String
  | 0, _ => []
  | _, [] => []
  | n + 1, bytes =>
    let piece := firstPiece bytes
    (String.fromUTF8? ⟨piece.toArray⟩).getD "�" :: lossyPieces n (bytes.drop piece.length)

/-- The text of these bytes. -/
def ofBytes (bytes : Array UInt8) : String :=
  (String.fromUTF8? ⟨bytes⟩).getD (String.join (lossyPieces bytes.size bytes.toList))

end StackCode.Text
