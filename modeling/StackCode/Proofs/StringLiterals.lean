import Mathlib.Data.List.Chain
import StackCode.CUnit.Literal

/-!
# String literals of C

How C reads a string literal: trigraphs are replaced first, and then the characters between the
quotes stand for bytes, some of them as escapes. An octal escape takes as many digits as follow it,
up to three.

A byte is written in one of three ways (`escapeByte_cases`): as itself, behind a backslash, or with
three octal digits. Each way is read back as that byte whatever follows, because no way goes on where
another one begins. In particular every question mark stands behind a backslash (`Escaped`), so that
two of them never meet.

Main result: **`stringLiteral_reads_back`**.
-/

namespace StackCode.CUnit

/-! ## Reading -/

/-- What two question marks and a character stand for. -/
def trigraph? (c : Char) : Option Char :=
  (("=/'()!<>-".toList.zip "#\\^[]|\x7b\x7d~".toList).find? (·.1 = c)).map (·.2)

/-- Replaces the trigraphs of a text. -/
def replaceTrigraphs : List Char → List Char
  | '?' :: '?' :: c :: rest =>
    match trigraph? c with
    | some d => d :: replaceTrigraphs rest
    | none => '?' :: replaceTrigraphs ('?' :: c :: rest)
  | c :: rest => c :: replaceTrigraphs rest
  | [] => []

/-- Whether a trigraph stands somewhere in the text. -/
def HasTrigraph (text : List Char) : Prop :=
  ∃ c, (trigraph? c).isSome ∧ ['?', '?', c] <:+: text

/-- The byte that a backslash and a character other than a digit stand for. -/
def simpleEscape? : Char → Option UInt8
  | '"' => some 34
  | '\\' => some 92
  | 'n' => some 10
  | 't' => some 9
  | 'r' => some 13
  | '?' => some 63
  | _ => none

/-- The value of an octal digit. -/
def octalValue? (c : Char) : Option Nat :=
  if '0' ≤ c ∧ c ≤ '7' then some (c.toNat - '0'.toNat) else none

/-- Takes octal digits, at most `n` of them. Gives the number that they continue `value` to, and the
rest of the text. -/
def takeOctal : Nat → Nat → List Char → Nat × List Char
  | n + 1, value, c :: rest =>
    match octalValue? c with
    | some d => takeOctal n (8 * value + d) rest
    | none => (value, c :: rest)
  | _, value, rest => (value, rest)

/-- A character that shows on paper, or the space. -/
def isPrintable (c : Char) : Bool := 0x20 ≤ c.toNat && c.toNat ≤ 0x7e

/-- Reads what stands for one byte inside a literal. Gives the byte and the rest of the text. -/
def readByte? : List Char → Option (UInt8 × List Char)
  | '\\' :: c :: rest =>
    match simpleEscape? c, octalValue? c with
    | some b, _ => some (b, rest)
    | none, some d =>
      let (value, rest') := takeOctal 2 d rest
      if value < 256 then some (value.toUInt8, rest') else none
    | none, none => none
  | c :: rest =>
    if isPrintable c && c ≠ '"' && c ≠ '\\' then some (c.toNat.toUInt8, rest) else none
  | [] => none

theorem length_takeOctal (n value : Nat) (text : List Char) :
    (takeOctal n value text).2.length ≤ text.length := by
  fun_induction takeOctal n value text with
  | case1 n value c rest d hd ih => exact Nat.le_succ_of_le ih
  | case2 => exact Nat.le_refl _
  | case3 => exact Nat.le_refl _

theorem length_readByte? {text rest : List Char} {b : UInt8}
    (h : readByte? text = some (b, rest)) : rest.length < text.length := by
  unfold readByte? at h
  split at h
  · split at h
    · cases h
      simp only [List.length_cons]
      omega
    · rename_i c tail _ _ d _ _
      dsimp only at h
      split at h
      · cases h
        have := length_takeOctal 2 d tail
        simp
        omega
      · cases h
    · cases h
  · split at h
    · cases h
      simp
    · cases h
  · cases h

/-- Reads the bytes up to the quote that ends the text. -/
def readBytes (text : List Char) : Option (List UInt8) :=
  if text = ['"'] then some []
  else
    match _h : readByte? text with
    | some (b, rest) => (readBytes rest).map (b :: ·)
    | none => none
termination_by text.length
decreasing_by exact length_readByte? _h

/-- The bytes of a string literal, as C reads it. -/
def readLiteral (literal : String) : Option (List UInt8) :=
  match replaceTrigraphs literal.toList with
  | '"' :: rest => readBytes rest
  | _ => none

/-- The offsets of the quotes that no backslash escapes, in a text that starts at `offset`. -/
def bareQuotes (offset : Nat) : List Char → List Nat
  | '\\' :: _ :: rest => bareQuotes (offset + 2) rest
  | '"' :: rest => offset :: bareQuotes (offset + 1) rest
  | _ :: rest => bareQuotes (offset + 1) rest
  | [] => []

/-! ## How a byte is written -/

theorem eq_of_ofNat_toNat {b : UInt8} {c : Char} (h : Char.ofNat b.toNat = c) :
    c.toNat = b.toNat ∧ b = c.toNat.toUInt8 := by
  have hvalid : b.toNat.isValidChar := .inl (Nat.lt_trans b.toNat_lt (by decide))
  have hnat : c.toNat = b.toNat := by
    rw [← h, Char.ofNat, dif_pos hvalid]
    rfl
  exact ⟨hnat, by simp [hnat]⟩

theorem octalValue?_octalDigit (n : Nat) : octalValue? (octalDigit n) = some (n % 8) := by
  have hall : ∀ d ∈ List.range 8, octalValue? (octalDigit d) = some d := by decide
  have hd := hall (n % 8) (List.mem_range.mpr (Nat.mod_lt _ (by decide)))
  unfold octalDigit at hd ⊢
  rwa [Nat.mod_mod] at hd

/-- An octal digit is printable, and neither an escape nor a character with a meaning. -/
theorem octalDigit_plain (n : Nat) : isPrintable (octalDigit n) = true ∧
    simpleEscape? (octalDigit n) = none ∧ octalDigit n ≠ '"' ∧ octalDigit n ≠ '\\' ∧
    octalDigit n ≠ '?' := by
  have hall : ∀ d ∈ List.range 8, isPrintable (octalDigit d) = true ∧
      simpleEscape? (octalDigit d) = none ∧ octalDigit d ≠ '"' ∧ octalDigit d ≠ '\\' ∧
      octalDigit d ≠ '?' := by decide
  have hd := hall (n % 8) (List.mem_range.mpr (Nat.mod_lt _ (by decide)))
  unfold octalDigit at hd ⊢
  rwa [Nat.mod_mod] at hd

/-- **The ways to write a byte**: behind a backslash, as itself, or with three octal digits. -/
theorem escapeByte_cases (b : UInt8) :
    (∃ c, escapeByte b = ['\\', c] ∧ simpleEscape? c = some b ∧ isPrintable c = true) ∨
    (∃ c, escapeByte b = [c] ∧ c.toNat.toUInt8 = b ∧ isPrintable c = true ∧ c ≠ '"' ∧ c ≠ '\\' ∧
      c ≠ '?') ∨
    escapeByte b =
      ['\\', octalDigit (b.toNat / 64), octalDigit (b.toNat / 8), octalDigit b.toNat] := by
  have short : ∀ {c d : Char}, Char.ofNat b.toNat = c → simpleEscape? d = some c.toNat.toUInt8 →
      isPrintable d = true →
      ∃ e, ['\\', d] = ['\\', e] ∧ simpleEscape? e = some b ∧ isPrintable e = true :=
    fun h hd hprintable => ⟨_, rfl, (eq_of_ofNat_toNat h).2 ▸ hd, hprintable⟩
  unfold escapeByte
  split
  · exact .inl (short (by assumption) rfl rfl)
  · exact .inl (short (by assumption) rfl rfl)
  · exact .inl (short (by assumption) rfl rfl)
  · exact .inl (short (by assumption) rfl rfl)
  · exact .inl (short (by assumption) rfl rfl)
  · exact .inl (short (by assumption) rfl rfl)
  · rename_i hquote hslash _ _ _ hmark
    obtain ⟨hnat, hb⟩ := eq_of_ofNat_toNat (b := b) rfl
    split
    · rename_i hrange
      have hprintable : isPrintable (Char.ofNat b.toNat) = true := by
        simpa [isPrintable, hnat, UInt8.le_iff_toNat_le] using hrange
      exact .inr (.inl ⟨_, rfl, hb.symm, hprintable, hquote, hslash, hmark⟩)
    · exact .inr (.inr rfl)

/-! ## Question marks -/

/-- Every question mark stands behind a backslash. -/
def Escaped (text : List Char) : Prop := text.IsChain fun a b => b = '?' → a = '\\'

theorem Escaped.not_hasTrigraph {text : List Char} (h : Escaped text) : ¬ HasTrigraph text := by
  rintro ⟨c, -, before, after, rfl⟩
  have hmarks : Escaped ['?', '?', c] := h.left_of_append.right_of_append
  exact absurd ((List.isChain_cons_cons.mp hmarks).1 rfl) (by decide)

/-- There is nothing to replace where every question mark is escaped. -/
theorem Escaped.replaceTrigraphs_eq {text : List Char} (h : Escaped text) :
    replaceTrigraphs text = text := by
  fun_induction replaceTrigraphs text with
  | case1 c rest d hd ih => exact absurd ((List.isChain_cons_cons.mp h).1 rfl) (by decide)
  | case2 c rest hd ih => exact absurd ((List.isChain_cons_cons.mp h).1 rfl) (by decide)
  | case3 c rest _ ih => rw [ih h.of_cons]
  | case4 => rfl

/-- What a byte is written with goes on any text that starts with no question mark. -/
theorem escaped_bytes (a : Char) (bytes : List UInt8) :
    Escaped (a :: (bytes.flatMap escapeByte ++ ['"'])) := by
  induction bytes generalizing a with
  | nil => exact List.isChain_pair.mpr fun h => absurd h (by decide)
  | cons b bytes ih =>
    have next : ∀ {a c : Char} {text : List Char}, c ≠ '?' → Escaped (c :: text) →
        Escaped (a :: c :: text) :=
      fun hc h => List.isChain_cons_cons.mpr ⟨fun heq => absurd heq hc, h⟩
    rw [List.flatMap_cons, List.append_assoc]
    rcases escapeByte_cases b with ⟨c, h, -, -⟩ | ⟨c, h, -, -, -, -, hmark⟩ | h
    · rw [h]
      exact next (by decide) (List.isChain_cons_cons.mpr ⟨fun _ => rfl, ih c⟩)
    · rw [h]
      exact next hmark (ih c)
    · rw [h]
      have digit := fun n => (octalDigit_plain n).2.2.2.2
      exact next (by decide) (next (digit _) (next (digit _) (next (digit _) (ih _))))

/-! ## Quotes and bytes -/

theorem isPrintable_of_mem_escapeByte {b : UInt8} {c : Char} (hc : c ∈ escapeByte b) :
    isPrintable c = true := by
  rcases escapeByte_cases b with ⟨d, h, -, hd⟩ | ⟨d, h, -, hd, -⟩ | h
  · rw [h] at hc
    rcases List.mem_pair.mp hc with rfl | rfl
    · rfl
    · exact hd
  · rw [h] at hc
    rw [List.mem_singleton.mp hc]
    exact hd
  · rw [h] at hc
    simp only [List.mem_cons, List.not_mem_nil, or_false] at hc
    rcases hc with rfl | rfl | rfl | rfl
    · rfl
    all_goals exact (octalDigit_plain _).1

theorem bareQuotes_of_ne {offset : Nat} {c : Char} {text : List Char} (hquote : c ≠ '"')
    (hslash : c ≠ '\\') : bareQuotes offset (c :: text) = bareQuotes (offset + 1) text := by
  rw [bareQuotes]
  · intro _ _ h _
    exact hslash h
  · exact hquote

/-- No quote of a byte is bare. -/
theorem bareQuotes_escapeByte (b : UInt8) (offset : Nat) (text : List Char) :
    bareQuotes offset (escapeByte b ++ text) =
      bareQuotes (offset + (escapeByte b).length) text := by
  rcases escapeByte_cases b with ⟨c, h, -, -⟩ | ⟨c, h, -, -, hquote, hslash, -⟩ | h
  · rw [h]
    rfl
  · rw [h]
    exact bareQuotes_of_ne hquote hslash
  · rw [h]
    have digit := fun n => (octalDigit_plain n).2.2
    exact (bareQuotes_of_ne (digit _).1 (digit _).2.1).trans
      (bareQuotes_of_ne (digit _).1 (digit _).2.1)

/-- Three octal digits are read as one number. -/
theorem takeOctal_octalDigit (value m n : Nat) (text : List Char) :
    takeOctal 2 value (octalDigit m :: octalDigit n :: text) =
      (8 * (8 * value + m % 8) + n % 8, text) := by
  simp [takeOctal, octalValue?_octalDigit]

/-- **A byte is read back**, whatever follows it. -/
theorem readByte?_escapeByte (b : UInt8) (text : List Char) :
    readByte? (escapeByte b ++ text) = some (b, text) := by
  rcases escapeByte_cases b with ⟨c, h, hc, -⟩ | ⟨c, h, hb, hc, hquote, hslash, -⟩ | h
  · rw [h]
    simp [readByte?, hc]
  · rw [h, List.singleton_append, readByte?]
    · simp [hc, hquote, hslash, hb]
    · intro _ _ heq _
      exact hslash heq
  · have hvalue : 8 * (8 * (b.toNat / 64 % 8) + b.toNat / 8 % 8) + b.toNat % 8 = b.toNat := by
      have := b.toNat_lt
      omega
    rw [h]
    simp only [List.cons_append, List.nil_append, readByte?, (octalDigit_plain _).2.1,
      octalValue?_octalDigit, takeOctal_octalDigit, hvalue, if_pos b.toNat_lt]
    simp

theorem readBytes_escaped (bytes : List UInt8) :
    readBytes (bytes.flatMap escapeByte ++ ['"']) = some bytes := by
  induction bytes with
  | nil => rw [readBytes]; rfl
  | cons b bytes ih =>
    have hread := readByte?_escapeByte b (bytes.flatMap escapeByte ++ ['"'])
    rw [List.flatMap_cons, List.append_assoc, readBytes]
    rw [if_neg, hread]
    · simp [ih]
    · intro heq
      rw [heq] at hread
      cases hread

theorem bareQuotes_escaped (bytes : List UInt8) (offset : Nat) :
    bareQuotes offset (bytes.flatMap escapeByte ++ ['"']) =
      [offset + (bytes.flatMap escapeByte).length] := by
  induction bytes generalizing offset with
  | nil => rfl
  | cons b bytes ih =>
    rw [List.flatMap_cons, List.append_assoc, bareQuotes_escapeByte, ih, List.length_append,
      Nat.add_assoc]

/-- **A string literal reads back as the bytes of its string.** It is printable, its quotes are
bare at its ends only, and no trigraph stands in it. -/
theorem stringLiteral_reads_back (s : String) :
    readLiteral (stringLiteral s) = some s.toUTF8.data.toList ∧
    (∀ c ∈ (stringLiteral s).toList, isPrintable c = true) ∧
    bareQuotes 0 (stringLiteral s).toList = [0, (stringLiteral s).length - 1] ∧
    ¬ HasTrigraph (stringLiteral s).toList := by
  have htext : (stringLiteral s).toList =
      '"' :: (s.toUTF8.data.toList.flatMap escapeByte ++ ['"']) := by
    rw [stringLiteral, String.toList_ofList, List.cons_append]
  have hescaped := escaped_bytes '"' s.toUTF8.data.toList
  refine ⟨?_, ?_, ?_, ?_⟩
  · rw [readLiteral, htext, hescaped.replaceTrigraphs_eq]
    exact readBytes_escaped _
  · rw [htext]
    intro c hc
    rcases List.mem_cons.mp hc with rfl | hc
    · rfl
    rcases List.mem_append.mp hc with hc | hc
    · obtain ⟨b, -, hb⟩ := List.mem_flatMap.mp hc
      exact isPrintable_of_mem_escapeByte hb
    · rw [List.mem_singleton.mp hc]
      rfl
  · have hlength : (stringLiteral s).length - 1 =
        1 + (s.toUTF8.data.toList.flatMap escapeByte).length := by
      rw [← String.length_toList, htext, List.length_cons, List.length_append, Nat.add_sub_cancel,
        Nat.add_comm]
      rfl
    rw [htext, hlength]
    exact congrArg (0 :: ·) (bareQuotes_escaped _ 1)
  · rw [htext]
    exact hescaped.not_hasTrigraph

end StackCode.CUnit
