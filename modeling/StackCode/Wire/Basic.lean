/-!
# Bytes

The pieces that encoded programs are made of. Unsigned numbers are written in groups of seven bits,
the low ones first, and every byte but the last has its top bit set. Signed numbers are folded into
unsigned ones first, so that small ones stay short. Truth values and the tags of options are one
byte, texts and lists start with their length.

A reader takes bytes from the front of a list and leaves the rest. The first fault that it meets
decides.
-/

namespace StackCode.Wire

/-- Why bytes cannot be read. -/
inductive DecodeError where
  | endOfBytes
  | longNumber
  | badBool
  | badOption
  | badText
  | unknownVariant
deriving DecidableEq, Repr

/-- The wording of the error. -/
def DecodeError.message : DecodeError → String
  | endOfBytes => "Hit the end of buffer, expected more data"
  | longNumber => "Found a varint that didn't terminate. Is the usize too big for this platform?"
  | badBool => "Found a bool that wasn't 0 or 1"
  | badOption => "Found an Option discriminant that wasn't 0 or 1"
  | badText => "Tried to parse invalid utf-8"
  | unknownVariant => "Serde Deserialization Error"

/-- Takes bytes from the front. -/
abbrev Reader := StateT (List UInt8) (Except DecodeError)

/-! ## Writing -/

/-- A number below `128 ^ width` in groups of seven bits. -/
def putGroups : Nat → Nat → List UInt8
  | 0, _ => []
  | width + 1, n =>
    if n < 128 then [n.toUInt8] else (n % 128 + 128).toUInt8 :: putGroups width (n / 128)

/-- A 64-bit number: at most ten bytes. -/
def putWord (n : UInt64) : List UInt8 := putGroups 10 n.toNat

/-- A 32-bit number: at most five bytes. -/
def putHalf (n : UInt32) : List UInt8 := putGroups 5 n.toNat

/-- The unsigned number for a signed one: twice it when it is not negative, and one less than twice
its absolute value otherwise. -/
def zigzag (n : Int64) : UInt64 :=
  if n < 0 then ((-(n.toInt)).toNat * 2 - 1).toUInt64 else (n.toInt.toNat * 2).toUInt64

/-- A 64-bit signed number. -/
def putInt (n : Int64) : List UInt8 := putWord (zigzag n)

/-- A truth value. -/
def putBool (b : Bool) : List UInt8 := [if b then 1 else 0]

/-- A value that may be missing. -/
def putOption {α : Type} (put : α → List UInt8) : Option α → List UInt8
  | none => [0]
  | some a => 1 :: put a

/-- A list: its length and its elements. -/
def putList {α : Type} (put : α → List UInt8) (xs : List α) : List UInt8 :=
  putWord xs.length.toUInt64 ++ xs.flatMap put

/-- A text: the number of its bytes and the bytes. -/
def putText (s : String) : List UInt8 :=
  let bytes := s.toUTF8.data.toList
  putWord bytes.length.toUInt64 ++ bytes

/-! ## Reading -/

/-- The next byte. -/
def getByte : Reader UInt8 := fun bytes =>
  match bytes with
  | [] => .error .endOfBytes
  | b :: rest => .ok (b, rest)

/-- A number of at most `width` groups of seven bits, the last of which is at most `top`. Groups of
zeros at the high end are accepted. -/
def getGroups (top : Nat) : Nat → Reader Nat
  | 0 => throw .longNumber
  | width + 1 => do
    let b ← getByte
    if b.toNat < 128 then
      if width = 0 ∧ top < b.toNat then throw .longNumber else return b.toNat
    else
      let high ← getGroups top width
      return b.toNat - 128 + 128 * high

/-- A 64-bit number. -/
def getWord : Reader UInt64 := return (← getGroups 1 10).toUInt64

/-- A 32-bit number. -/
def getHalf : Reader UInt32 := return (← getGroups 15 5).toUInt32

/-- The signed number for an unsigned one. -/
def unzigzag (n : UInt64) : Int64 :=
  if n.toNat % 2 = 0 then Int64.ofInt (n.toNat / 2 : Nat)
  else Int64.ofInt (-((n.toNat / 2 : Nat) : Int) - 1)

/-- A 64-bit signed number. -/
def getInt : Reader Int64 := return unzigzag (← getWord)

/-- A truth value. -/
def getBool : Reader Bool := do
  match (← getByte).toNat with
  | 0 => return false
  | 1 => return true
  | _ => throw .badBool

/-- A value that may be missing. -/
def getOption {α : Type} (get : Reader α) : Reader (Option α) := do
  match (← getByte).toNat with
  | 0 => return none
  | 1 => return some (← get)
  | _ => throw .badOption

/-- `n` elements. -/
def getMany {α : Type} (get : Reader α) : Nat → Reader (List α)
  | 0 => return []
  | n + 1 => do
    let a ← get
    let rest ← getMany get n
    return a :: rest

/-- A list. -/
def getList {α : Type} (get : Reader α) : Reader (List α) := do
  let n ← getWord
  getMany get n.toNat

/-- A text. -/
def getText : Reader String := do
  let n ← getWord
  let bytes ← get
  if bytes.length < n.toNat then throw .endOfBytes
  set (bytes.drop n.toNat)
  match String.fromUTF8? ⟨(bytes.take n.toNat).toArray⟩ with
  | some s => return s
  | none => throw .badText

end StackCode.Wire
