import Mathlib.Data.List.SplitBy
import StackCode.Proofs.StringLiterals

/-!
# How C reads a text

Before C looks for the words of a text it replaces trigraphs, joins every line that ends in a
backslash with the next one, and takes each comment for a space, in this order (`clean`). So a
comment ends at the first star and slash that meet after lines have been joined, and not where they
meet in the text. A name in a comment is harmless when they never meet in it (`CommentKept`): then
the comment is one space, whatever stands behind it (`clean_comment`). A name on a single line
always is (`commentKept_of_line`).
-/

namespace StackCode.CUnit

/-! ## Lines -/

/-- Line ends of other systems become line feeds. -/
def lineEnds : List Char → List Char
  | '\r' :: '\n' :: rest => '\n' :: lineEnds rest
  | '\r' :: rest => '\n' :: lineEnds rest
  | c :: rest => c :: lineEnds rest
  | [] => []

/-- What may stand between a backslash and the end of its line: nothing, by the standard, but
compilers look past these characters. -/
def isBlank (c : Char) : Bool := c ∈ [' ', '\t', '\x0b', '\x0c', '\x00']

/-- Joins lines. `held` is a backslash that the line may end in, as the blanks behind it. -/
def joinLines (held : Option (List Char)) : List Char → List Char
  | [] => held.elim [] ('\\' :: ·)
  | c :: rest =>
    match held with
    | none => if c = '\\' then joinLines (some []) rest else c :: joinLines none rest
    | some blanks =>
      if c = '\n' then joinLines none rest
      else if isBlank c then joinLines (some (blanks ++ [c])) rest
      else if c = '\\' then '\\' :: (blanks ++ joinLines (some []) rest)
      else '\\' :: (blanks ++ c :: joinLines none rest)

/-- The text without trigraphs, in joined lines. -/
def joined (text : List Char) : List Char := joinLines none (replaceTrigraphs (lineEnds text))

/-! ## Comments -/

/-- Where a text is read. -/
inductive Mode where
  | code
  /-- Between two of these quotes. -/
  | literal (quote : Char)
  /-- In a comment that ends with the line. -/
  | line
  | comment
deriving DecidableEq, Repr

/-- Takes each comment for a space. -/
def uncomment : Mode → List Char → List Char
  | .code, '/' :: '*' :: rest => uncomment .comment rest
  | .code, '/' :: '/' :: rest => uncomment .line rest
  | .code, c :: rest =>
    c :: uncomment (if c = '"' ∨ c = Char.ofNat 39 then .literal c else .code) rest
  | .literal quote, '\\' :: c :: rest => '\\' :: c :: uncomment (.literal quote) rest
  | .literal quote, c :: rest =>
    c :: uncomment (if c = quote then .code else .literal quote) rest
  | .line, '\n' :: rest => ' ' :: '\n' :: uncomment .code rest
  | .line, _ :: rest => uncomment .line rest
  | .comment, '*' :: '/' :: rest => ' ' :: uncomment .code rest
  | .comment, _ :: rest => uncomment .comment rest
  | _, [] => []

/-- The text that words are looked for in. -/
def clean (text : List Char) : List Char := uncomment .code (joined text)

/-! ## Words -/

/-- A part of a name or a number. -/
def isWordChar (c : Char) : Bool := c.isAlphanum || c = '_'

/-- Whether two neighbours belong to one word. -/
def sameWord (a b : Char) : Bool := isWordChar a && isWordChar b

/-- The words of a text: names and numbers as a whole, all else by character. -/
def words (text : List Char) : List String :=
  ((text.splitBy sameWord).filter (·.any (!·.isWhitespace))).map String.ofList

/-- The words of a text as C reads it. -/
def wordsRead (text : String) : List String := words (clean text.toList)

example : wordsRead "f(a, 1 /* *\\\n/, 2 /* ??) */);\n" =
    ["f", "(", "a", ",", "1", ",", "2", ")", ";"] := by decide +kernel

/-- Texts whose ends do not belong to one word have the words of both. -/
theorem words_append {a b : List Char}
    (h : ∀ x ∈ a.getLast?, ∀ y ∈ b.head?, sameWord x y = false) :
    words (a ++ b) = words a ++ words b := by
  unfold words
  rw [List.splitBy_append h, List.filter_append, List.map_append]

/-- White space has no words. -/
theorem words_of_blank {text : List Char} (h : ∀ c ∈ text, c.isWhitespace = true) :
    words text = [] := by
  have hblank : (text.splitBy sameWord).filter (·.any (!·.isWhitespace)) = [] := by
    simp only [List.filter_eq_nil_iff, List.any_eq_true, Bool.not_eq_true', not_exists, not_and]
    intro word hword c hc
    have hmem : c ∈ (text.splitBy sameWord).flatten := List.mem_flatten.mpr ⟨word, hword, hc⟩
    rw [List.flatten_splitBy] at hmem
    simp [h c hmem]
  rw [words, hblank, List.map_nil]

/-! ## Ordinary characters -/

/-- A character that C never reads as anything but itself. -/
def isOrdinary (c : Char) : Bool := !(c ∈ ['?', '\\', '/', '"', Char.ofNat 39, '\r'])

theorem lineEnds_cons {c : Char} (hc : c ≠ '\r') (text : List Char) :
    lineEnds (c :: text) = c :: lineEnds text := by
  rw [lineEnds] <;> simp [hc]

theorem replaceTrigraphs_cons {c : Char} (hc : c ≠ '?') (text : List Char) :
    replaceTrigraphs (c :: text) = c :: replaceTrigraphs text := by
  rw [replaceTrigraphs]
  simp [hc]

theorem joinLines_cons {c : Char} (hc : c ≠ '\\') (text : List Char) :
    joinLines none (c :: text) = c :: joinLines none text := by
  simp [joinLines, hc]

/-- Only a carriage return, a question mark or a backslash can begin what is replaced. -/
theorem joined_cons {c : Char} (hline : c ≠ '\r') (hmark : c ≠ '?') (hslash : c ≠ '\\')
    (text : List Char) : joined (c :: text) = c :: joined text := by
  rw [joined, lineEnds_cons hline, replaceTrigraphs_cons hmark, joinLines_cons hslash, joined]

/-- An ordinary character outside of comments is read as it is. -/
theorem clean_cons {c : Char} (hc : isOrdinary c = true) (text : List Char) :
    clean (c :: text) = c :: clean text := by
  simp only [isOrdinary, List.mem_cons, List.not_mem_nil, or_false, Bool.not_eq_true',
    decide_eq_false_iff_not, not_or] at hc
  obtain ⟨hmark, hslash, hstart, hquote, hquote', hline⟩ := hc
  rw [clean, joined_cons hline hmark hslash, uncomment, if_neg (by simp [hquote, hquote']), clean]
  · simp [hstart]
  · simp [hstart]

/-- Ordinary text is read as it stands. -/
theorem clean_append {text : List Char} (h : ∀ c ∈ text, isOrdinary c = true) (rest : List Char) :
    clean (text ++ rest) = text ++ clean rest := by
  induction text with
  | nil => rfl
  | cons c text ih =>
    rw [List.forall_mem_cons] at h
    rw [List.cons_append, clean_cons h.1, ih h.2, List.cons_append]

/-! ## Comments with a name -/

/-- A star and a slash never meet in the name, as C reads it in a comment. -/
def CommentKept (name : String) : Prop :=
  ¬ ['*', '/'] <:+: joined (breakCommentEnds name.toList)

instance (name : String) : Decidable (CommentKept name) :=
  inferInstanceAs (Decidable (¬ _))

/-- A blank keeps the line ends on its two sides apart. -/
theorem lineEnds_append (a b : List Char) :
    lineEnds (a ++ ' ' :: b) = lineEnds a ++ ' ' :: lineEnds b := by
  fun_induction lineEnds a with
  | case1 rest ih => simp [lineEnds, ih]
  | case2 rest h ih =>
    rw [List.cons_append, lineEnds, ih, List.cons_append]
    intro rest' heq
    cases rest with
    | nil => cases heq
    | cons c rest =>
      cases heq
      exact h rest rfl
  | case3 c rest h h' ih =>
    rw [List.cons_append, lineEnds_cons h', ih, List.cons_append]
  | case4 => simp [lineEnds]

/-- No trigraph has a blank in it. -/
theorem replaceTrigraphs_append (a b : List Char) :
    replaceTrigraphs (a ++ ' ' :: b) = replaceTrigraphs a ++ ' ' :: replaceTrigraphs b := by
  have hspace := replaceTrigraphs_cons (c := ' ') (by decide) b
  fun_induction replaceTrigraphs a with
  | case1 c rest d hd ih => simp only [List.cons_append, replaceTrigraphs, hd, ih]
  | case2 c rest hd ih =>
    simp only [List.cons_append, replaceTrigraphs, hd]
    rw [← List.cons_append, ← List.cons_append, ih]
  | case3 c rest h ih =>
    -- question marks that the first part ends in are no trigraph with the space
    rcases rest with _ | ⟨d, _ | ⟨e, rest⟩⟩
    · rw [List.cons_append, replaceTrigraphs, ih, List.cons_append]
      simp
    · by_cases hmarks : c = '?' ∧ d = '?'
      · obtain ⟨rfl, rfl⟩ := hmarks
        simp [replaceTrigraphs, show trigraph? ' ' = none by decide]
      · rw [List.cons_append, replaceTrigraphs, ih, List.cons_append]
        rintro _ _ hc heq
        exact hmarks ⟨hc, (List.cons.inj heq).1⟩
    · rw [List.cons_append, replaceTrigraphs, ih, List.cons_append]
      rintro _ _ hc heq
      exact h e rest hc (by rw [(List.cons.inj heq).1])
  | case4 => exact hspace

/-- A backslash that the first part ends in stays: neither a line end nor more blanks follow. -/
theorem joinLines_append (held : Option (List Char)) (a b : List Char) :
    joinLines held (a ++ ' ' :: '*' :: b) = joinLines held a ++ ' ' :: '*' :: joinLines none b := by
  induction a generalizing held with
  | nil => cases held <;> simp [joinLines, isBlank]
  | cons c a ih =>
    cases held with
    | none => by_cases hc : c = '\\' <;> simp [joinLines, hc, ih]
    | some blanks =>
      simp only [List.cons_append, joinLines, ih]
      split_ifs <;> simp

/-- A comment goes on to its own end, if none is inside. -/
theorem uncomment_comment {text : List Char} (h : ¬ ['*', '/'] <:+: text) (rest : List Char) :
    uncomment .comment (text ++ ' ' :: '*' :: '/' :: rest) = ' ' :: uncomment .code rest := by
  induction text with
  | nil => simp [uncomment]
  | cons c text ih =>
    rw [List.cons_append, uncomment, ih]
    · exact fun hinfix => h (List.infix_cons hinfix)
    · intro rest' hc heq
      subst hc
      cases text with
      | nil => cases heq
      | cons d text =>
        cases heq
        exact h ⟨[], text, rfl⟩

/-- **A comment is one space**, whatever stands behind it, when its name keeps it. -/
theorem clean_comment {name : String} (h : CommentKept name) (rest : List Char) :
    clean ((comment name).toList ++ rest) = ' ' :: clean rest := by
  have htext : (comment name).toList ++ rest =
      '/' :: '*' :: ' ' :: (breakCommentEnds name.toList ++ ' ' :: '*' :: '/' :: rest) := by
    simp [comment]
  have hopens : ∀ text, joined ('/' :: '*' :: ' ' :: text) = '/' :: '*' :: ' ' :: joined text := by
    intro text
    rw [joined_cons, joined_cons, joined_cons] <;> decide
  have hjoined : joined (breakCommentEnds name.toList ++ ' ' :: '*' :: '/' :: rest) =
      joined (breakCommentEnds name.toList) ++ ' ' :: '*' :: '/' :: joined rest := by
    rw [joined, lineEnds_append, replaceTrigraphs_append, lineEnds_cons (by decide),
      replaceTrigraphs_cons (by decide), joinLines_append, lineEnds_cons (by decide),
      replaceTrigraphs_cons (by decide), joinLines_cons (by decide), joined, joined]
  rw [clean, htext, hopens, hjoined, uncomment, uncomment, uncomment_comment h, clean]
  nofun

/-! ## Names on one line -/

/-- No star stands before a slash. -/
def Unclosed (text : List Char) : Prop := text.IsChain fun a b => a = '*' → b ≠ '/'

theorem Unclosed.not_infix {text : List Char} (h : Unclosed text) : ¬ ['*', '/'] <:+: text := by
  rintro ⟨before, after, rfl⟩
  have hpair : Unclosed ['*', '/'] := h.left_of_append.right_of_append
  exact (List.isChain_cons_cons.mp hpair).1 rfl rfl

theorem unclosed_cons {c : Char} {text : List Char} (h : Unclosed text)
    (hc : c = '*' → text.head? ≠ some '/') : Unclosed (c :: text) := by
  refine List.isChain_cons.mpr ⟨fun d hd hstar heq => hc hstar ?_, h⟩
  rw [← heq]
  exact hd

/-- The generator leaves no star in front of a slash. -/
theorem unclosed_breakCommentEnds (text : List Char) : Unclosed (breakCommentEnds text) := by
  have hhead : ∀ text, (breakCommentEnds text).head? = text.head? := by
    intro text
    fun_cases breakCommentEnds text <;> rfl
  fun_induction breakCommentEnds text with
  | case1 rest ih =>
    exact unclosed_cons (unclosed_cons (unclosed_cons ih nofun) nofun) nofun
  | case2 c rest h ih =>
    refine unclosed_cons ih fun hstar hslash => ?_
    rw [hhead] at hslash
    obtain ⟨rest', heq⟩ := List.head?_eq_some_iff.mp hslash
    exact h rest' hstar heq
  | case3 => exact List.isChain_nil

/-- No trigraph stands for a star, a slash or the end of a line. -/
theorem trigraph?_eq_some {c d : Char} (h : trigraph? c = some d) : d ∉ ['*', '/', '\n'] := by
  obtain ⟨pair, hfound, rfl⟩ := Option.map_eq_some_iff.mp h
  have hall : ∀ pair ∈ "=/'()!<>-".toList.zip "#\\^[]|\x7b\x7d~".toList,
      pair.2 ∉ ['*', '/', '\n'] := by decide
  exact hall pair (List.mem_of_find?_eq_some hfound)

theorem head?_replaceTrigraphs {text : List Char}
    (h : (replaceTrigraphs text).head? = some '/') : text.head? = some '/' := by
  fun_cases replaceTrigraphs text with
  | case1 c rest d hd =>
    simp only [replaceTrigraphs, hd, List.head?_cons, Option.some.injEq] at h
    exact absurd (trigraph?_eq_some hd) (by simp [h])
  | case2 c rest hd =>
    simp [replaceTrigraphs, hd] at h
  | case3 c rest hmarks =>
    rw [replaceTrigraphs] at h
    · exact h
    · exact hmarks
  | case4 => exact h

/-- Trigraphs stand for no star, slash or line end. -/
theorem Unclosed.replaceTrigraphs {text : List Char} (h : Unclosed text) (hline : '\n' ∉ text) :
    Unclosed (replaceTrigraphs text) ∧ '\n' ∉ CUnit.replaceTrigraphs text := by
  fun_induction CUnit.replaceTrigraphs text with
  | case1 c rest d hd ih =>
    have hplain := trigraph?_eq_some hd
    simp only [List.mem_cons, List.not_mem_nil, or_false, not_or] at hplain hline
    obtain ⟨hrest, hmem⟩ := ih h.tail.tail.tail hline.2.2.2
    refine ⟨unclosed_cons hrest fun hstar => absurd hstar hplain.1, ?_⟩
    exact List.not_mem_cons_of_ne_of_not_mem (Ne.symm hplain.2.2) hmem
  | case2 c rest hd ih =>
    obtain ⟨hrest, hmem⟩ := ih h.tail (List.not_mem_of_not_mem_cons hline)
    exact ⟨unclosed_cons hrest fun hstar => absurd hstar (by decide),
      List.not_mem_cons_of_ne_of_not_mem (by decide) hmem⟩
  | case3 c rest _ ih =>
    obtain ⟨hfirst, hrest⟩ := List.isChain_cons.mp h
    obtain ⟨hrest, hmem⟩ := ih hrest (List.not_mem_of_not_mem_cons hline)
    refine ⟨unclosed_cons hrest fun hstar hslash => ?_,
      List.not_mem_cons_of_ne_of_not_mem (List.ne_of_not_mem_cons hline) hmem⟩
    exact hfirst '/' (head?_replaceTrigraphs hslash) hstar rfl
  | case4 => exact ⟨List.isChain_nil, List.not_mem_nil⟩

theorem mem_breakCommentEnds {text : List Char} {c : Char} (h : c ∈ breakCommentEnds text) :
    c ∈ text ∨ c = ' ' := by
  fun_induction breakCommentEnds text with
  | case1 rest ih | case2 d rest _ ih =>
    simp only [List.mem_cons] at h ⊢
    tauto
  | case3 => cases h

theorem lineEnds_of_line {text : List Char} (h : '\r' ∉ text) : lineEnds text = text := by
  induction text with
  | nil => rfl
  | cons c text ih =>
    rw [lineEnds_cons (Ne.symm (List.ne_of_not_mem_cons h)), ih (List.not_mem_of_not_mem_cons h)]

/-- Without line ends there is nothing to join. -/
theorem joinLines_of_line {text : List Char} (h : '\n' ∉ text) (held : Option (List Char)) :
    joinLines held text = held.elim [] ('\\' :: ·) ++ text := by
  induction text generalizing held with
  | nil => simp [joinLines]
  | cons c text ih =>
    rw [List.mem_cons, not_or] at h
    cases held with
    | none => by_cases hc : c = '\\' <;> simp [joinLines, hc, ih h.2]
    | some blanks =>
      simp only [joinLines, if_neg (Ne.symm h.1), ih h.2]
      split_ifs <;> simp_all

/-- **A name on one line keeps its comment.** -/
theorem commentKept_of_line {name : String} (hfeed : '\n' ∉ name.toList)
    (hreturn : '\r' ∉ name.toList) : CommentKept name := by
  have hmem : ∀ {c : Char}, c ≠ ' ' → c ∉ name.toList → c ∉ breakCommentEnds name.toList :=
    fun hspace hc h => (mem_breakCommentEnds h).elim hc hspace
  obtain ⟨hunclosed, hline⟩ := (unclosed_breakCommentEnds name.toList).replaceTrigraphs
    (hmem (by decide) hfeed)
  unfold CommentKept joined
  rw [lineEnds_of_line (hmem (by decide) hreturn), joinLines_of_line hline]
  exact hunclosed.not_infix

end StackCode.CUnit
