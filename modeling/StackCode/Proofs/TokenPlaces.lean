import Mathlib.Data.List.Chain
import Mathlib.Data.List.Forall2
import StackCode.Token.Scan

/-!
# Where tokens stand

The scanner keeps a place and moves it over each character that it passes. Here places are counted
anew from the whole text (`Position.ofOffset`): the line by the line ends before the offset, the
column by the characters since the last of these.

While a text is scanned, the place kept is the one that is counted (`At`). One step for each word
shows that the scanner passes the characters of the word and no others, or stops at a character
that its error is about (`scanWord_placed`); the run over the text puts these together.

Main result: **`scan_places_exact`**.
-/

namespace StackCode

/-! ## Counting -/

/-- The place of the character with this offset in a text, or of the end of the text. -/
def Position.ofOffset (text : List Char) (offset : Nat) : Position :=
  let before := text.take offset
  ⟨1 + before.count '\n', 1 + (before.reverse.takeWhile (· ≠ '\n')).length⟩

/-- Moving over characters from the start is counting them. -/
theorem Position.start_advance (before : List Char) : Position.start.advance before =
    ⟨1 + before.count '\n', 1 + (before.reverse.takeWhile (· ≠ '\n')).length⟩ := by
  induction before using List.reverseRecOn with
  | nil => rfl
  | append_singleton before c ih =>
    rw [Position.advance_append, ih, Position.advance_cons, Position.advance_nil,
      List.reverse_append, List.reverse_singleton, List.singleton_append, List.count_append]
    unfold Position.next
    by_cases hc : c = '\n'
    · simp [hc, Nat.add_assoc]
    · simp [hc, Nat.add_comm]

example : Position.ofOffset "(a\n b)".toList 4 = ⟨2, 2⟩ := by decide

/-- What an error of the scanner says about the character at its place; there is none at the end. -/
def ReadError.Cause.IsAbout : ReadError.Cause → Option Char → Prop
  | .unknownEscape c, here | .unexpectedChar c, here => here = some c
  | .endInEscape, here => here = none
  | .unterminatedString, here => here = some '"'
  | .invalidInteger _, here => here.any (fun c => c.isDigit || c = '-')
  | _, _ => False

namespace Token

variable {text rest : List Char} {offset : Nat} {p : Position}

/-- The scanner has come to an offset of the text: what is left of it, and the place. -/
structure At (text : List Char) (offset : Nat) (p : Position) (rest : List Char) : Prop where
  inside : offset ≤ text.length
  left : text.drop offset = rest
  place : p = .ofOffset text offset

theorem at_start (text : List Char) : At text 0 .start text :=
  ⟨Nat.zero_le _, rfl, rfl⟩

/-- Moving over characters keeps the place in step with the offset. -/
theorem At.move {word : List Char} (h : At text offset p (word ++ rest)) :
    At text (offset + word.length) (p.advance word) rest where
  inside := by
    have hlength := congrArg List.length h.left
    rw [List.length_drop, List.length_append] at hlength
    have := h.inside
    omega
  left := by
    rw [← List.drop_drop, h.left, List.drop_left]
  place := by
    have htake : text.take (offset + word.length) = text.take offset ++ word := by
      rw [List.take_add, h.left, List.take_left]
    have hplace : p = Position.start.advance (text.take offset) := by
      rw [h.place, Position.start_advance]
      rfl
    rw [hplace, ← Position.advance_append, ← htake, Position.start_advance]
    rfl

theorem At.getElem? (h : At text offset p rest) : text[offset]? = rest.head? := by
  rw [← h.left, List.head?_drop]

/-! ## Words -/

/-- What an attempt to read from `text`, which begins at `p`, says about places: it passed a part of
the text, with a result in `P`, or it failed where something stands that the error is about. -/
def Placed {α : Type} (P : α → Prop) (p : Position) (text : List Char) :
    Except ReadError (α × Position × List Char) → Prop
  | .ok (a, q, rest) => P a ∧ ∃ word, word ≠ [] ∧ text = word ++ rest ∧ q = p.advance word
  | .error e => ∃ before rest, text = before ++ rest ∧ e.pos = p.advance before ∧
      e.cause.IsAbout rest.head?

/-- Characters that are passed before the attempt. -/
theorem Placed.after {α : Type} {P : α → Prop} {r : Except ReadError (α × Position × List Char)}
    (word : List Char) (h : Placed P (p.advance word) text r) : Placed P p (word ++ text) r := by
  cases r with
  | ok taken =>
    obtain ⟨ha, passed, hpassed, htext, hq⟩ := h
    exact ⟨ha, word ++ passed, List.append_ne_nil_of_right_ne_nil _ hpassed,
      by rw [htext, List.append_assoc], by rw [hq, Position.advance_append]⟩
  | error e =>
    obtain ⟨before, rest, htext, hpos, habout⟩ := h
    exact ⟨word ++ before, rest, by rw [htext, List.append_assoc],
      by rw [hpos, Position.advance_append], habout⟩

/-- A string literal either never ends, which is an error at its quote, or is passed up to its own
quote or to an escape that is none. -/
theorem scanString_placed (quote : Position) (p : Position) (text acc : List Char) :
    scanString quote p text acc = .error ⟨.unterminatedString, quote⟩ ∨
      Placed (fun _ => True) p text (scanString quote p text acc) := by
  fun_induction scanString quote p text acc with
  | case1 => exact .inl rfl
  | case2 p rest acc => exact .inr ⟨trivial, ['"'], List.cons_ne_nil _ _, rfl, rfl⟩
  | case3 p acc => exact .inr ⟨['\\'], [], rfl, rfl, rfl⟩
  | case4 p c rest acc d hd ih => exact ih.imp_right (Placed.after ['\\', c])
  | case5 p c rest acc hnone => exact .inr ⟨['\\'], c :: rest, rfl, rfl, rfl⟩
  | case6 p c rest acc _ _ _ ih => exact ih.imp_right (Placed.after [c])

theorem scanNumber_placed (p : Position) {c : Char}
    (hc : (c.isDigit || (c = '-' && rest.head?.any Char.isDigit)) = true) :
    Placed (· ≠ .eof) p (c :: rest) (scanNumber p (c :: rest)) := by
  unfold scanNumber
  split
  rename_i sign body hsplit
  have hbody : c :: rest = sign ++ body ∧ sign ++ body.takeWhile isNumberChar ≠ [] := by
    split at hsplit
    · cases hsplit
      exact ⟨by assumption, List.cons_ne_nil _ _⟩
    · rename_i hsign
      cases hsplit
      have hdigit : c.isDigit = true := by
        rcases Bool.or_eq_true_iff.mp hc with h | h
        · exact h
        · exact (hsign rest (by simp [of_decide_eq_true (Bool.and_eq_true_iff.mp h).1])).elim
      simp [isNumberChar, hdigit]
  dsimp only
  split
  · refine ⟨by simp, sign ++ body.takeWhile isNumberChar, hbody.2, ?_,
      (Position.advance_append ..).symm⟩
    rw [List.append_assoc, List.takeWhile_append_dropWhile, hbody.1]
  · have hfirst : (c.isDigit || decide (c = '-')) = true := by
      rcases Bool.or_eq_true_iff.mp hc with h | h
      · exact Bool.or_eq_true_iff.mpr (.inl h)
      · exact Bool.or_eq_true_iff.mpr (.inr (Bool.and_eq_true_iff.mp h).1)
    exact ⟨[], c :: rest, rfl, rfl, hfirst⟩

/-- **One word**: the scanner passes some characters, or stops at one that its error is about. The
end of a text is no word. -/
theorem scanWord_placed (p : Position) (c : Char) (rest : List Char) :
    Placed (· ≠ .eof) p (c :: rest) (scanWord p c rest) := by
  have hspan : ∀ (q : Char → Bool) (text : List Char),
      text = text.takeWhile q ++ text.dropWhile q :=
    fun _ _ => List.takeWhile_append_dropWhile.symm
  unfold scanWord
  split
  · exact ⟨by simp, [c], List.cons_ne_nil _ _, rfl, rfl⟩
  split
  · exact ⟨by simp, c :: rest.takeWhile (· ≠ '\n'), List.cons_ne_nil _ _,
      congrArg (c :: ·) (hspan _ rest), rfl⟩
  split
  · rename_i hquote
    rcases scanString_placed p (p.next c) rest [] with hopen | h
    · rw [hopen]
      exact ⟨[], c :: rest, rfl, rfl, congrArg some hquote⟩
    · have h := h.after [c]
      generalize scanString p (p.next c) rest [] = r at h
      cases r with
      | ok taken => exact ⟨by simp, h.2⟩
      | error e => exact h
  split
  · exact ⟨by simp, [c], List.cons_ne_nil _ _, rfl, rfl⟩
  split
  · exact ⟨by simp, [c], List.cons_ne_nil _ _, rfl, rfl⟩
  split
  · rename_i hnumber
    exact scanNumber_placed p hnumber
  split
  · rename_i hatom
    exact ⟨by simp, (c :: rest).takeWhile isAtomChar, by simp [hatom], hspan _ (c :: rest), rfl⟩
  · exact ⟨[], c :: rest, rfl, rfl, rfl⟩

/-! ## Texts -/

/-- A stretch of a text: the offset of its first character, and the one behind its last. -/
structure Extent where
  start : Nat
  stop : Nat

/-- The lexeme is made of the characters of this stretch, and stands where the first of them does.
The end of the text is made of none. -/
inductive Fills (text : List Char) : Extent → Lexeme → Prop
  | word {start : Nat} {c : Char} {word rest : List Char} {t : Token} (ht : t ≠ .eof)
    (htext : text.drop start = c :: word ++ rest)
    (hscan : scanWord (.ofOffset text start) c (word ++ rest) =
      .ok (t, .ofOffset text (start + (c :: word).length), rest)) :
    Fills text ⟨start, start + (c :: word).length⟩ ⟨t, .ofOffset text start⟩
  | eof : Fills text ⟨text.length, text.length⟩ ⟨.eof, .ofOffset text text.length⟩

/-- The characters between two offsets of the text are blanks; an end of a line is none. -/
def BlankBetween (text : List Char) (start stop : Nat) : Prop :=
  start ≤ stop ∧ ∀ c ∈ (text.take stop).drop start, c = ' ' ∨ c = '\t' ∨ c = '\r'

/-- The lexemes of a text from an offset on, with the stretches that they fill. -/
structure Layout (text : List Char) (offset : Nat) (extents : List Extent)
    (lexemes : List Lexeme) : Prop where
  filled : List.Forall₂ (Fills text) extents lexemes
  increasing : extents.Pairwise (·.start < ·.start)
  /-- What stands before the first lexeme. -/
  lead : ∀ x ∈ extents.head?, BlankBetween text offset x.start
  /-- What stands between two neighbours. -/
  gaps : extents.IsChain fun x y => BlankBetween text x.stop y.start
  ended : lexemes.getLast? = some ⟨.eof, .ofOffset text text.length⟩

/-- What scanning a text from an offset on says about places. The lexemes fill stretches of the text
with only blanks between them; an error points at a character that it is about, or at the end. -/
def PlacesExact (text : List Char) (offset : Nat) : Except ReadError (List Lexeme) → Prop
  | .ok lexemes => ∃ extents, Layout text offset extents lexemes
  | .error e => ∃ k ≤ text.length, e.pos = .ofOffset text k ∧ e.cause.IsAbout text[k]?

/-- Blanks are passed from an offset on. -/
theorem At.skip (h : At text offset p rest) :
    let gap := rest.takeWhile isBlank
    At text (offset + gap.length) (p.advance gap) (rest.dropWhile isBlank) ∧
      BlankBetween text offset (offset + gap.length) := by
  intro gap
  have hparts : gap ++ rest.dropWhile isBlank = rest := List.takeWhile_append_dropWhile
  have hmove : At text offset p (gap ++ rest.dropWhile isBlank) := by
    rw [hparts]
    exact h
  refine ⟨hmove.move, Nat.le_add_right _ _, fun c hc => ?_⟩
  have hgap : (text.take (offset + gap.length)).drop offset = gap := by
    rw [List.drop_take, hmove.left, Nat.add_sub_cancel_left, List.take_left]
  rw [hgap] at hc
  have hblank : isBlank c = true := List.all_eq_true.mp List.all_takeWhile c hc
  simpa [isBlank, or_assoc] using hblank

theorem layout_eof (h : At text offset p []) (hblank : BlankBetween text start offset) :
    Layout text start [⟨text.length, text.length⟩] [⟨.eof, p⟩] := by
  have hend : offset = text.length :=
    Nat.le_antisymm h.inside (List.drop_eq_nil_iff.mp h.left)
  have hplace := h.place
  subst hend
  subst hplace
  exact ⟨.cons .eof .nil, List.pairwise_singleton .., by simpa using hblank, .singleton _, rfl⟩

/-- A lexeme before a layout. -/
theorem Layout.cons {start : Nat} {x : Extent} {l : Lexeme} {extents : List Extent}
    {lexemes : List Lexeme} (h : Layout text x.stop extents lexemes) (hfill : Fills text x l)
    (hlt : x.start < x.stop) (hblank : BlankBetween text start x.start) :
    Layout text start (x :: extents) (l :: lexemes) where
  filled := .cons hfill h.filled
  increasing := by
    refine List.pairwise_cons.mpr ⟨?_, h.increasing⟩
    -- the first of the others starts behind `x`, and the rest behind the first
    have hlead := h.lead
    have hincreasing := h.increasing
    intro y hy
    cases extents with
    | nil => cases hy
    | cons z extents =>
      have hz := (hlead z rfl).1
      rcases List.mem_cons.mp hy with rfl | hy
      · omega
      · have := (List.pairwise_cons.mp hincreasing).1 y hy
        omega
  lead := by simpa using hblank
  gaps := List.isChain_cons.mpr ⟨h.lead, h.gaps⟩
  ended := by
    have hended := h.ended
    cases lexemes with
    | nil => cases hended
    | cons => exact hended

/-- Lexemes that were read before make no difference to what is read. -/
theorem scanFrom_acc (n : Nat) (p : Position) (text : List Char) (acc : List Lexeme) :
    scanFrom n p text acc = (scanFrom n p text []).map (acc.reverse ++ ·) := by
  induction n generalizing p text acc with
  | zero => simp [scanFrom, Except.map]
  | succ n ih =>
    simp only [scanFrom]
    split
    · simp [Except.map]
    · split
      · rename_i token next rest' _
        rw [ih next rest' (_ :: acc), ih next rest' [_]]
        cases scanFrom n next rest' [] <;> simp [Except.map]
      · rfl

/-- **From every offset on**, what is scanned stands where the scanner says. -/
theorem scanFrom_exact (n : Nat) (h : At text offset p rest) (hn : rest.length ≤ n) :
    PlacesExact text offset (scanFrom n p rest []) := by
  induction n generalizing offset p rest with
  | zero =>
    obtain rfl := List.length_eq_zero_iff.mp (Nat.le_zero.mp hn)
    exact ⟨_, layout_eof h ⟨Nat.le_refl _, by simp⟩⟩
  | succ n ih =>
    obtain ⟨hskip, hblank⟩ := h.skip
    have hshort : (rest.dropWhile isBlank).length ≤ rest.length :=
      (List.dropWhile_sublist _).length_le
    simp only [scanFrom]
    generalize p.advance (rest.takeWhile isBlank) = here at hskip
    generalize offset + (rest.takeWhile isBlank).length = start at hskip hblank
    split
    · rename_i hnil
      rw [hnil] at hskip
      exact ⟨_, layout_eof hskip hblank⟩
    · rename_i c rest' hcons
      rw [hcons] at hskip hshort
      have hplaced := scanWord_placed here c rest'
      split
      · rename_i token next left hword
        rw [hword] at hplaced
        obtain ⟨htoken, word, hne, htext, rfl⟩ := hplaced
        obtain ⟨c, word, rfl⟩ := List.exists_cons_of_ne_nil hne
        obtain ⟨rfl, rfl⟩ := List.cons.inj htext
        have hplace := hskip.place
        subst hplace
        have hmove : At text (start + (c :: word).length) _ left := At.move hskip
        have hfill := Fills.word htoken hskip.left (hmove.place ▸ hword)
        rw [scanFrom_acc]
        have hrest := ih hmove (by simp at hshort; omega)
        generalize scanFrom n _ left [] = r at hrest
        cases r with
        | ok lexemes =>
          obtain ⟨extents, hlayout⟩ := hrest
          exact ⟨_, hlayout.cons hfill (by simp) hblank⟩
        | error e => exact hrest
      · rename_i e hword
        rw [hword] at hplaced
        obtain ⟨before, left, htext, hpos, habout⟩ := hplaced
        rw [htext] at hskip
        have hmove := hskip.move
        exact ⟨_, hmove.inside, hpos.trans hmove.place, hmove.getElem? ▸ habout⟩

/-- **Places are exact.** Every lexeme of a text stands at the line and the column of its first
character, and the end of the text behind the last character. The lexemes come in the order of the
text with only blanks between them. When the text is refused, the place given is that of a character
that the refusal is about, or of the end. -/
theorem scan_places_exact (source : String) :
    PlacesExact source.toList 0 (scan source) :=
  scanFrom_exact _ (at_start _) (Nat.le_refl _)

end Token

end StackCode
