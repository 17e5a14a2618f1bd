import StackCode.Token.Scan
import StackCode.Value

/-!
# Scanning undoes writing

Tokens are written as words, with something between neighbours that separates them: blanks, line
ends and comments. Scanning gives the tokens back, whatever the separators are.

Every kind of word has a scanner of its own that goes on to the first character which cannot belong
to the word. What follows a word is a separator or the end of the text, and neither can: a separator
starts with a character that no number and no bare word has (`Parted`). A string ends with its
quote, because a quote inside of it is escaped.
-/

namespace StackCode.Token

open Text

/-! ## Writing -/

/-- The token as it is written in a text: a string as it is shown, with escapes, and other tokens as
messages give them. -/
def source : Token → String
  | .string s => (Value.str s).inspect
  | t => t.text

/-- Whether the word can stand for itself: it is made of characters of bare words, and does not
start as a number does. -/
def isBareWord (s : String) : Bool :=
  match s.toList with
  | [] => false
  | c :: rest =>
    (c :: rest).all isAtomChar && !c.isDigit && !(c = '-' && rest.head?.any Char.isDigit)

/-- Whether the token can be written as a word. -/
def isWritable : Token → Bool
  | .atom s => isBareWord s
  | .integer _ | .string _ | .lparen | .rparen => true
  | .comment _ | .newline | .eof => false

/-- What separates words. -/
inductive Separator where
  | blank
  | tab
  | carriageReturn
  | newline
  /-- A comment, up to the end of its line. -/
  | comment (text : String) (one_line : '\n' ∉ text.toList)

/-- The separator as it is written. -/
def Separator.source : Separator → String
  | blank => " "
  | tab => "\t"
  | carriageReturn => "\r"
  | newline => "\n"
  | comment text _ => ";" ++ text ++ "\n"

/-- What stands between two neighbours: at least one separator. -/
structure Gap where
  first : Separator
  more : List Separator := []

/-- The gap as it is written. -/
def Gap.source (g : Gap) : String := g.first.source ++ String.join (g.more.map Separator.source)

/-- Tokens as they are written, with `gap i` behind the token number `i`. -/
def written (gap : Nat → Gap) : List Token → String
  | [] => ""
  | [t] => t.source
  | t :: u :: rest => t.source ++ ((gap 0).source ++ written (fun i => gap (i + 1)) (u :: rest))

/-! ## Where words end -/

/-- The characters that separators start with. -/
def partingChars : List Char := [' ', '\t', '\r', '\n', ';']

/-- A word that stands before the text ends there: the text is empty or starts with a separator. -/
def Parted (text : List Char) : Prop := ∀ c ∈ text.head?, c ∈ partingChars

variable {text rest : List Char} {c : Char} {words : List Token}

/-- A scanner that goes on while characters belong to a word stops where the word ends. -/
theorem Parted.span_eq {p : Char → Bool} {word : List Char} (h : Parted text)
    (hp : partingChars.any p = false) (hword : ∀ c ∈ word, p c = true) :
    (word ++ text).takeWhile p = word ∧ (word ++ text).dropWhile p = text := by
  rw [List.takeWhile_append_of_pos hword, List.dropWhile_append_of_pos hword]
  cases text with
  | nil => simp
  | cons c rest => simp [List.any_eq_false.mp hp c (h c rfl)]

/-- What parts words does not go on with a number. -/
theorem Parted.not_digit (h : Parted text) : text.head?.any Char.isDigit = false := by
  cases text with
  | nil => rfl
  | cons c rest =>
    have hdigit : partingChars.any Char.isDigit = false := rfl
    exact Bool.eq_false_iff.mpr (List.any_eq_false.mp hdigit c (h c rfl))

/-! ## Strings -/

/-- A character that is written as it is. -/
theorem scanString_raw {quote p : Position} {acc : List Char} (hquote : c ≠ '"')
    (hslash : c ≠ '\\') :
    scanString quote p (c :: rest) acc = scanString quote (p.next c) rest (c :: acc) := by
  rw [scanString]
  · exact hquote
  · intro h _
    exact hslash h
  · intro _ _ h _
    exact hslash h

/-- A character that is written behind a backslash. -/
theorem scanString_escape {quote p : Position} {acc : List Char} {d : Char}
    (h : unescape? c = some d) : scanString quote p ('\\' :: c :: rest) acc =
      scanString quote ((p.next '\\').next c) rest (d :: acc) := by
  rw [scanString, h]

/-- A character is shown by an escape that stands for it, or as it is. -/
theorem inspectChar_cases (c : Char) :
    (∃ d, Value.inspectChar c = ['\\', d] ∧ unescape? d = some c) ∨
      Value.inspectChar c = [c] ∧ c ≠ '"' ∧ c ≠ '\\' := by
  unfold Value.inspectChar
  split
  · exact Or.inl ⟨'"', rfl, rfl⟩
  · exact Or.inl ⟨'\\', rfl, rfl⟩
  · exact Or.inl ⟨'n', rfl, rfl⟩
  · exact Or.inl ⟨'t', rfl, rfl⟩
  · rename_i hquote hslash _ _
    exact Or.inr ⟨rfl, hquote, hslash⟩

/-- **The characters of a string come back**, up to the quote that ends it. -/
theorem scanString_inspect (quote : Position) (text : List Char) : ∀ (s : List Char) (p : Position)
    (acc : List Char), ∃ q, scanString quote p (s.flatMap Value.inspectChar ++ '"' :: text) acc =
      .ok (acc.reverse ++ s, q, text) := by
  intro s
  induction s with
  | nil =>
    intro p acc
    exact ⟨p.next '"', by simp [scanString]⟩
  | cons c s ih =>
    intro p acc
    have hacc : acc.reverse ++ c :: s = (c :: acc).reverse ++ s := by simp
    rw [List.flatMap_cons, List.append_assoc, hacc]
    rcases inspectChar_cases c with ⟨d, hshown, hd⟩ | ⟨hshown, hquote, hslash⟩
    · obtain ⟨q, hq⟩ := ih ((p.next '\\').next d) (c :: acc)
      exact ⟨q, by rw [hshown, ← hq]; exact scanString_escape hd⟩
    · obtain ⟨q, hq⟩ := ih (p.next c) (c :: acc)
      exact ⟨q, by rw [hshown, ← hq]; exact scanString_raw hquote hslash⟩

/-! ## Numbers -/

/-- Every number that a token has is in range. -/
theorem int64?_toInt (n : Int64) : int64? n.toInt = some n := by
  unfold int64?
  rw [if_pos ⟨n.minValue_le_toInt, n.toInt_le⟩, Int64.ofInt_toInt]

/-- Digits are read back. -/
theorem decimal_toDigits (n : Nat) : decimal (Nat.toDigits 10 n) = n := by
  have h : Nat.ofDigitChars 10 (Nat.toDigits 10 n) 0 = n := Nat.ofDigitChars_ten_toDigits
  rwa [Nat.ofDigitChars_eq_foldl] at h

/-- The digits of a number and what follows them. -/
theorem span_digits {digits : List Char} (hdigits : ∀ c ∈ digits, c.isDigit = true)
    (h : Parted text) : (digits ++ text).takeWhile isNumberChar = digits ∧
      (digits ++ text).dropWhile isNumberChar = text :=
  h.span_eq rfl fun c hc => by simp [isNumberChar, hdigits c hc]

theorem scanNumber_nat {d : Char} {ds : List Char} {n : Int64}
    (hdigits : ∀ c ∈ d :: ds, c.isDigit = true) (h : Parted text)
    (hn : int64? (decimal (d :: ds)) = some n) (p : Position) :
    ∃ q, scanNumber p (d :: ds ++ text) = .ok (.integer n, q, text) := by
  obtain ⟨htake, hdrop⟩ := span_digits hdigits h
  have hall : (d :: ds).filter Char.isDigit = d :: ds := List.filter_eq_self.mpr hdigits
  have hsign : d ≠ '-' := by
    rintro rfl
    exact absurd (hdigits '-' (List.mem_cons_self ..)) (by decide)
  unfold scanNumber
  split
  rename_i heq
  split at heq
  · rename_i hminus
    exact absurd (List.cons.inj hminus).1 hsign
  · cases heq
    simp only [htake, hdrop, hall, List.isEmpty_nil, if_true, hn]
    exact ⟨_, rfl⟩

/-- A minus sign in front of digits belongs to the number. -/
theorem scanNumber_neg {digits : List Char} {n : Int64}
    (hdigits : ∀ c ∈ digits, c.isDigit = true) (h : Parted text)
    (hn : int64? (-(decimal digits : Int)) = some n) (p : Position) :
    ∃ q, scanNumber p ('-' :: (digits ++ text)) = .ok (.integer n, q, text) := by
  obtain ⟨htake, hdrop⟩ := span_digits hdigits h
  have hall : digits.filter Char.isDigit = digits := List.filter_eq_self.mpr hdigits
  simp only [scanNumber, htake, hdrop, hall, List.isEmpty_cons, Bool.false_eq_true, if_false, hn]
  exact ⟨_, rfl⟩

/-! ## Words -/

/-- The scanner of words takes `word` for the token `t`, and goes on with `text`. -/
def TakenFor (t : Token) (word text : List Char) : Prop :=
  ∃ c w, word = c :: w ∧ isBlank c = false ∧
    ∀ p, ∃ q, scanWord p c (w ++ text) = .ok (t, q, text)

/-- The characters with a meaning of their own: no number and no bare word starts with one. -/
def specialChars : List Char := [' ', '\t', '\r', '\n', ';', '"', '(', ')']

theorem notMem_specialChars {p : Char → Bool} (hp : specialChars.any p = false)
    (hc : p c = true) : c ∉ specialChars :=
  fun hmem => List.any_eq_false.mp hp c hmem hc

theorem isBlank_of_notMem (h : c ∉ specialChars) : isBlank c = false := by
  simp only [specialChars, List.mem_cons, not_or] at h
  simp [isBlank, h]

theorem scanWord_of_notMem (h : c ∉ specialChars) (p : Position) (rest : List Char) :
    scanWord p c rest =
      if c.isDigit || (c = '-' && rest.head?.any Char.isDigit) then scanNumber p (c :: rest)
      else if isAtomChar c then
        .ok (.atom (String.ofList ((c :: rest).takeWhile isAtomChar)),
          p.advance ((c :: rest).takeWhile isAtomChar), (c :: rest).dropWhile isAtomChar)
      else .error ⟨.unexpectedChar c, p⟩ := by
  simp only [specialChars, List.mem_cons, not_or] at h
  simp only [scanWord, h, if_false]

/-- A string is taken to its closing quote, whatever is inside. -/
theorem takenFor_string (s : String) (text : List Char) :
    TakenFor (.string s) (Value.str s).inspect.toList text := by
  refine ⟨'"', s.toList.flatMap Value.inspectChar ++ ['"'], by simp [Value.inspect], rfl, ?_⟩
  intro p
  obtain ⟨q, hq⟩ := scanString_inspect p text s.toList (p.next '"') []
  refine ⟨q, ?_⟩
  rw [List.append_assoc]
  show (scanString p (p.next '"') _ [] >>= _) = _
  rw [List.singleton_append, hq]
  simp [bind, Except.bind]

/-- A number is taken to its last digit. -/
theorem takenFor_integer (n : Int64) (h : Parted text) :
    TakenFor (.integer n) (toString n.toInt).toList text := by
  have hread := int64?_toInt n
  generalize n.toInt = k at hread
  cases k with
  | ofNat k =>
    obtain ⟨d, ds, hdigits⟩ := List.exists_cons_of_ne_nil (Nat.toDigits_ne_nil (b := 10) (n := k))
    have hall : ∀ c ∈ d :: ds, c.isDigit = true := by
      rw [← hdigits]
      exact fun c => Nat.isDigit_of_mem_toDigits (by decide) (by decide)
    have hd := hall d (List.mem_cons_self ..)
    have hplain := notMem_specialChars (p := Char.isDigit) rfl hd
    refine ⟨d, ds, by rw [← hdigits]; exact Nat.toList_repr, isBlank_of_notMem hplain, fun p => ?_⟩
    rw [scanWord_of_notMem hplain, if_pos (by simp [hd])]
    refine scanNumber_nat hall h ?_ p
    rw [← hdigits, decimal_toDigits]
    exact hread
  | negSucc k =>
    have hall : ∀ c ∈ Nat.toDigits 10 (k + 1), c.isDigit = true :=
      fun c => Nat.isDigit_of_mem_toDigits (by decide) (by decide)
    obtain ⟨d, ds, hdigits⟩ :=
      List.exists_cons_of_ne_nil (Nat.toDigits_ne_nil (b := 10) (n := k + 1))
    have hd := hall d (hdigits ▸ List.mem_cons_self ..)
    have hplain : '-' ∉ specialChars := by decide
    refine ⟨'-', Nat.toDigits 10 (k + 1), ?_, isBlank_of_notMem hplain, fun p => ?_⟩
    · show ("-" ++ Nat.repr (k + 1)).toList = _
      rw [String.toList_append, Nat.toList_repr]
      rfl
    rw [scanWord_of_notMem hplain, if_pos (by simp [hdigits, hd])]
    refine scanNumber_neg hall h ?_ p
    rw [decimal_toDigits]
    exact hread

/-- A bare word is taken to its last character. -/
theorem takenFor_atom {s : String} (hs : isBareWord s = true) (h : Parted text) :
    TakenFor (.atom s) s.toList text := by
  unfold isBareWord at hs
  cases hword : s.toList with
  | nil =>
    rw [hword] at hs
    cases hs
  | cons c w =>
    rw [hword] at hs
    simp only [Bool.and_eq_true, List.all_eq_true, Bool.not_eq_true'] at hs
    obtain ⟨⟨hall, hdigit⟩, hsign⟩ := hs
    have hplain := notMem_specialChars (p := isAtomChar) rfl (hall c (List.mem_cons_self ..))
    have hnumber : (c.isDigit || (c = '-' && (w ++ text).head?.any Char.isDigit)) = false := by
      cases w with
      | nil => simp [hdigit, h.not_digit]
      | cons d w => simpa [hdigit] using hsign
    obtain ⟨htake, hdrop⟩ := h.span_eq (p := isAtomChar) rfl hall
    rw [List.cons_append] at htake hdrop
    refine ⟨c, w, rfl, isBlank_of_notMem hplain, fun p => ?_⟩
    rw [scanWord_of_notMem hplain, hnumber, if_neg Bool.false_ne_true,
      if_pos (hall c (List.mem_cons_self ..)), htake, hdrop, ← hword, String.ofList_toList]
    exact ⟨_, rfl⟩

/-- **A written token is taken for itself.** -/
theorem takenFor_source {t : Token} (ht : t.isWritable = true) (h : Parted text) :
    TakenFor t t.source.toList text := by
  cases t with
  | integer n => exact takenFor_integer n h
  | string s => exact takenFor_string s text
  | atom s => exact takenFor_atom ht h
  | lparen => exact ⟨'(', [], rfl, rfl, fun p => ⟨p.next '(', rfl⟩⟩
  | rparen => exact ⟨')', [], rfl, rfl, fun p => ⟨p.next ')', rfl⟩⟩
  | comment | newline | eof => cases ht

/-! ## Texts -/

/-- Scanning the text gives `words`, apart from comments and line ends, wherever the text stands and
whatever was read before it. -/
def Scans (text : List Char) (words : List Token) : Prop :=
  ∀ n p acc, text.length ≤ n → ∃ lexemes, scanFrom n p text acc = .ok (acc.reverse ++ lexemes) ∧
    (lexemes.map (·.token)).filter isSignificant = words

theorem scans_nil : Scans [] [.eof] := by
  intro n p acc _
  refine ⟨[⟨.eof, p⟩], ?_, rfl⟩
  cases n with
  | zero => simp [scanFrom]
  | succ n => simp [scanFrom]

/-- Blanks are skipped. -/
theorem Scans.blank (h : Scans text words) (hc : isBlank c = true) : Scans (c :: text) words := by
  intro n p acc hn
  obtain ⟨n, rfl⟩ := Nat.exists_eq_succ_of_ne_zero (Nat.ne_zero_of_lt hn)
  obtain ⟨lexemes, hscan, hwords⟩ := h (n + 1) (p.next c) acc (Nat.le_of_succ_le hn)
  refine ⟨lexemes, ?_, hwords⟩
  rw [← hscan]
  simp only [scanFrom, List.takeWhile_cons_of_pos hc, List.dropWhile_cons_of_pos hc,
    Position.advance_cons]

/-- A word is one lexeme; it counts unless it is a comment or the end of a line. -/
theorem Scans.word {t : Token} {word : List Char} (h : Scans text words)
    (hword : TakenFor t word text) : Scans (word ++ text) ([t].filter isSignificant ++ words) := by
  intro n p acc hn
  obtain ⟨c, w, rfl, hblank, htaken⟩ := hword
  obtain ⟨n, rfl⟩ := Nat.exists_eq_succ_of_ne_zero (Nat.ne_zero_of_lt hn)
  obtain ⟨q, hq⟩ := htaken p
  have hrest : text.length ≤ n := by
    simp only [List.cons_append, List.length_cons, List.length_append] at hn
    omega
  obtain ⟨lexemes, hscan, hwords⟩ := h n q (⟨t, p⟩ :: acc) hrest
  have hc : ¬ isBlank c = true := by simp [hblank]
  refine ⟨⟨t, p⟩ :: lexemes, ?_, ?_⟩
  · simp only [scanFrom, List.cons_append, List.takeWhile_cons_of_neg hc,
      List.dropWhile_cons_of_neg hc, Position.advance_nil, hq, hscan]
    simp
  · rw [← hwords, ← List.filter_append]
    rfl

/-! ## Separators and gaps -/

theorem takenFor_newline (text : List Char) : TakenFor .newline ['\n'] text :=
  ⟨'\n', [], rfl, rfl, fun p => ⟨p.next '\n', rfl⟩⟩

/-- A comment is taken to the end of its line. -/
theorem takenFor_comment {line : List Char} (h : '\n' ∉ line) (text : List Char) :
    TakenFor (.comment (String.ofList (trimSpace line))) (';' :: line) ('\n' :: text) := by
  have hline : ∀ c ∈ line, decide (c ≠ '\n') = true :=
    fun c hc => decide_eq_true fun heq => h (heq ▸ hc)
  have htake : (line ++ '\n' :: text).takeWhile (· ≠ '\n') = line := by
    rw [List.takeWhile_append_of_pos hline]
    simp
  have hdrop : (line ++ '\n' :: text).dropWhile (· ≠ '\n') = '\n' :: text := by
    rw [List.dropWhile_append_of_pos hline]
    simp
  refine ⟨';', line, rfl, rfl, fun p => ⟨p.advance (';' :: line), ?_⟩⟩
  simp only [scanWord, htake, hdrop]
  rfl

/-- **A separator is no word.** -/
theorem Scans.separator (h : Scans text words) (s : Separator) :
    Scans (s.source.toList ++ text) words := by
  have hline : Scans ('\n' :: text) words := h.word (takenFor_newline text)
  cases s with
  | blank => exact h.blank rfl
  | tab => exact h.blank rfl
  | carriageReturn => exact h.blank rfl
  | newline => exact hline
  | comment line one_line =>
    have hcomment : Scans (';' :: line.toList ++ '\n' :: text) words :=
      hline.word (takenFor_comment one_line text)
    simpa [Separator.source] using hcomment

theorem Scans.gap (h : Scans text words) (g : Gap) : Scans (g.source.toList ++ text) words := by
  have hmore : ∀ more : List Separator,
      Scans ((String.join (more.map Separator.source)).toList ++ text) words := by
    intro more
    induction more with
    | nil => simpa using h
    | cons s more ih => simpa [String.join_cons] using ih.separator s
  simpa [Gap.source] using (hmore g.more).separator g.first

theorem Separator.exists_source (s : Separator) :
    ∃ c rest, s.source.toList = c :: rest ∧ c ∈ partingChars := by
  cases s with
  | blank => exact ⟨' ', [], rfl, by decide⟩
  | tab => exact ⟨'\t', [], rfl, by decide⟩
  | carriageReturn => exact ⟨'\r', [], rfl, by decide⟩
  | newline => exact ⟨'\n', [], rfl, by decide⟩
  | comment line _ =>
    exact ⟨';', line.toList ++ ['\n'], by simp [Separator.source], by decide⟩

/-- What begins with a gap parts words. -/
theorem parted_gap (g : Gap) (text : List Char) : Parted (g.source.toList ++ text) := by
  obtain ⟨c, rest, hfirst, hc⟩ := g.first.exists_source
  intro d hd
  rw [Gap.source, String.toList_append, hfirst] at hd
  cases hd
  exact hc

/-! ## Written tokens -/

/-- A token that can be written is neither a comment nor the end of a line. -/
theorem filter_of_isWritable {t : Token} (ht : t.isWritable = true) :
    [t].filter isSignificant = [t] := by
  cases t with
  | comment | newline | eof => cases ht
  | _ => rfl

/-- Written words are scanned one by one. -/
theorem scans_written : ∀ (tokens : List Token) (gap : Nat → Gap),
    (∀ t ∈ tokens, t.isWritable = true) → Scans (written gap tokens).toList (tokens ++ [.eof]) := by
  intro tokens
  induction tokens with
  | nil => exact fun _ _ => scans_nil
  | cons t rest ih =>
    intro gap h
    have ht := h t (List.mem_cons_self ..)
    cases rest with
    | nil =>
      have hlast := scans_nil.word (takenFor_source ht fun c hc => absurd hc (by simp))
      rwa [filter_of_isWritable ht, List.append_nil] at hlast
    | cons u rest =>
      have hrest := ih (fun i => gap (i + 1)) fun t ht => h t (List.mem_cons_of_mem _ ht)
      have hword := (hrest.gap (gap 0)).word (takenFor_source ht (parted_gap (gap 0) _))
      rw [filter_of_isWritable ht] at hword
      simpa [written] using hword

/-- **Scanning undoes writing.** Tokens that are written with any gaps between them come back, and
then the end of the text. -/
theorem scan_written (gap : Nat → Gap) {tokens : List Token}
    (h : ∀ t ∈ tokens, t.isWritable = true) :
    (scanSignificant (written gap tokens)).map (·.map (·.token)) = .ok (tokens ++ [.eof]) := by
  obtain ⟨lexemes, hscan, hwords⟩ := scans_written tokens gap h _ .start [] (Nat.le_refl _)
  have hsig : (lexemes.filter (·.token.isSignificant)).map (·.token) = tokens ++ [.eof] := by
    rw [← hwords, List.filter_map]
    rfl
  rw [scanSignificant, scan, hscan, ← hsig]
  rfl

/-- Both ends of the 64-bit integers, a sign that is a word, and a string with all that words and
separators are made of. -/
def assortedTokens : List Token :=
  [.lparen, .atom "-", .integer Int64.minValue, .string "a\"b\\c\n\td\re;(é)", .atom "$g_1",
    .integer Int64.maxValue, .rparen]

/-- A gap of every kind. -/
def assortedGap : Nat → Gap
  | 0 => ⟨.tab, []⟩
  | 1 => ⟨.newline, []⟩
  | 2 => ⟨.comment " a \" and a ; (" (by decide), []⟩
  | 3 => ⟨.carriageReturn, [.newline, .comment "" (by decide), .blank]⟩
  | _ => ⟨.blank, []⟩

theorem scan_assortedTokens :
    written assortedGap assortedTokens =
      "(\t-\n" ++ "-9223372036854775808; a \" and a ; (\n" ++
      "\"a\\\"b\\\\c\\n\\td\re;(é)\"\r\n" ++ ";\n" ++ " $g_1 9223372036854775807 )" ∧
    (∀ t ∈ assortedTokens, t.isWritable = true) ∧
    (scanSignificant (written assortedGap assortedTokens)).map (·.map (·.token)) =
      .ok (assortedTokens ++ [.eof]) :=
  have h : ∀ t ∈ assortedTokens, t.isWritable = true := by decide +kernel
  ⟨by decide +kernel, h, scan_written assortedGap h⟩

end StackCode.Token
