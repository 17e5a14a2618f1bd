import StackCode.Proofs.CText
import StackCode.Proofs.Tokens

/-!
# Functions as C reads them

The tokens of a function are its text (`Function.text_layout`). C finds them there when every
comment ends where it should: a comment is then no word at all, and any other token has its own
words, since no word goes on from one token to the next (`Parted`). The fixed text between the
tokens has no word that matters, neither a brace nor a temp nor a part of a reference (`telling`).

Main result: **`Function.readAsLaidOut_of_kept`**.
-/

namespace StackCode.CUnit

/-- Whether the word is the name of a temp. -/
def isTempName (word : String) : Bool :=
  match word.toList with
  | 't' :: d :: digits => (d :: digits).all Char.isDigit
  | _ => false

/-- Whether a word matters: it is a brace or a temp, goes to an environment, or starts a
reference. -/
def telling (word : String) : Bool :=
  isTempName word || word ∈ ["\x7b", "\x7d", "vars", "rt_env_at", "rt_str", "rt_sym", "rt_globals",
    "rt_send", "rt_define_method", "rt_closure_new"]

/-- The words of a token; a comment has none. -/
def Token.words : Token → List String
  | .comment _ => []
  | token => CUnit.words token.code.toList

/-- The words that matter in a token of this shape. -/
def Token.shows : Token → String → Bool
  | .opening, word => word = "\x7b"
  | .closing, word => word = "\x7d"
  | .declare n, word | .use n, word => word = tempName n
  | .slot .., word => word = "vars" || word = "rt_env_at"
  | .symbol _, word => word = "rt_sym"
  | .string _, word => word = "rt_str"
  | .global _, word => word = "rt_globals"
  | .send, word => word = "rt_send"
  | .method .., word => word = "rt_define_method"
  | .closure _, word => word = "rt_closure_new"
  | _, _ => false

/-- C finds the words of the tokens in the text of the function, and no others, whatever stands
behind it; and each word that matters stands in a token that has the shape for it. -/
structure Function.ReadAsLaidOut (f : Function) : Prop where
  words : ∀ rest, words (clean ((textOf f.lines).toList ++ rest)) =
    f.layout.flatten.flatMap Token.words ++ words (clean rest)
  shows : ∀ token ∈ f.layout.flatten, ∀ word ∈ token.words, telling word = true →
    token.shows word = true

/-! ## Ordinary text -/

/-- C reads the text as it stands. -/
def Ordinary (s : String) : Prop := ∀ c ∈ s.toList, isOrdinary c = true

theorem ordinary_of_all {s : String} (h : s.toList.all isOrdinary = true) : Ordinary s :=
  List.all_eq_true.mp h

/-- Names and numbers have ordinary characters only. -/
theorem isOrdinary_of_isWordChar {c : Char} (h : isWordChar c = true) : isOrdinary c = true := by
  have hnone : ['?', '\\', '/', '"', Char.ofNat 39, '\r'].any isWordChar = false := rfl
  by_contra hc
  simp only [isOrdinary, Bool.not_eq_true', decide_eq_false_iff_not, not_not] at hc
  exact List.any_eq_false.mp hnone c hc h

theorem ordinary_append {a b : String} (ha : Ordinary a) (hb : Ordinary b) :
    Ordinary (a ++ b) := by
  unfold Ordinary
  rw [String.toList_append]
  exact List.forall_mem_append.mpr ⟨ha, hb⟩

theorem ordinary_join {parts : List String} (h : ∀ s ∈ parts, Ordinary s) :
    Ordinary (String.join parts) := by
  induction parts with
  | nil => exact nofun
  | cons s rest ih =>
    rw [List.forall_mem_cons] at h
    rw [String.join_cons]
    exact ordinary_append h.1 (ih h.2)

theorem isWordChar_of_mem_toString {n : Nat} {c : Char} (hc : c ∈ (toString n).toList) :
    c.isDigit = true ∧ isWordChar c = true := by
  rw [show (toString n).toList = Nat.toDigits 10 n from Nat.toList_repr] at hc
  have hdigit := Nat.isDigit_of_mem_toDigits (by decide) (by decide) hc
  exact ⟨hdigit, by simp [isWordChar, Char.isAlphanum, hdigit]⟩

theorem ordinary_toString (n : Nat) : Ordinary (toString n) :=
  fun _ hc => isOrdinary_of_isWordChar (isWordChar_of_mem_toString hc).2

theorem ordinary_toString_int (n : Int) : Ordinary (toString n) := by
  cases n with
  | ofNat n => exact ordinary_toString n
  | negSucc n => exact ordinary_append (a := "-") (ordinary_of_all rfl) (ordinary_toString (n + 1))

/-- The name of a function is one word, whatever the method is called. -/
theorem FunctionName.isWordChar_of_mem_code {f : FunctionName} {c : Char} (hc : c ∈ f.code.toList) :
    isWordChar c = true := by
  have hfixed : ∀ s ∈ ["cinder_main", "m", "_", "b", "_block"],
      s.toList.all isWordChar = true := by decide
  have hmangle : ∀ name, ∀ c ∈ (mangle name).toList, isWordChar c = true := by
    intro name c hc
    unfold mangle at hc
    rw [String.toList_ofList] at hc
    obtain ⟨d, -, rfl⟩ := List.mem_map.mp hc
    unfold isWordChar
    split <;> simp_all
  cases f with
  | main => exact List.all_eq_true.mp (hfixed _ (by decide)) c hc
  | method number name =>
    simp only [FunctionName.code, String.toList_append, List.mem_append] at hc
    rcases hc with ((hc | hc) | hc) | hc
    · exact List.all_eq_true.mp (hfixed "m" (by decide)) c hc
    · exact (isWordChar_of_mem_toString hc).2
    · exact List.all_eq_true.mp (hfixed "_" (by decide)) c hc
    · exact hmangle name c hc
  | block number =>
    simp only [FunctionName.code, String.toList_append, List.mem_append] at hc
    rcases hc with (hc | hc) | hc
    · exact List.all_eq_true.mp (hfixed "b" (by decide)) c hc
    · exact (isWordChar_of_mem_toString hc).2
    · exact List.all_eq_true.mp (hfixed "_block" (by decide)) c hc

theorem FunctionName.ordinary_code (f : FunctionName) : Ordinary f.code :=
  fun _ hc => isOrdinary_of_isWordChar (FunctionName.isWordChar_of_mem_code hc)

/-- C reads the token as it is meant: a comment is kept, and there is no C that is not known. -/
def Token.Kept : Token → Prop
  | .comment name => CommentKept name
  | .raw _ => False
  | _ => True

/-- What is left of the token when comments are spaces. -/
def Token.bare : Token → List Char
  | .comment _ => [' ']
  | token => token.code.toList

/-- Whether fixed text has neither a character nor a word that matters. -/
def isInertText (cs : List Char) : Bool := cs.all isOrdinary && (words cs).all (!telling ·)

/-- Whether a token is no fixed text, or one that is inert. -/
def Token.isInert : Token → Bool
  | .text s => isInertText s.toList
  | _ => true

/-- Every token is ordinary text, except for comments. -/
theorem Token.ordinary_code {token : Token} (hkept : token.Kept) (hinert : token.isInert = true)
    (hcomment : ∀ name, token ≠ .comment name) : Ordinary token.code := by
  have hempty : ∀ s ∈ ([] : List String), Ordinary s := nofun
  have hcons : ∀ {s : String} {parts : List String}, Ordinary s → (∀ s ∈ parts, Ordinary s) →
      ∀ part ∈ s :: parts, Ordinary part :=
    fun hs hparts => List.forall_mem_cons.mpr ⟨hs, hparts⟩
  have hfixed : ∀ {s : String} {parts : List String}, s.toList.all isOrdinary = true →
      (∀ s ∈ parts, Ordinary s) → ∀ part ∈ s :: parts, Ordinary part :=
    fun hs => hcons (ordinary_of_all hs)
  have htemp : ∀ n, Ordinary (tempName n) := fun n =>
    ordinary_append (a := "t") (ordinary_of_all rfl) (ordinary_toString n)
  have href : ∀ s : Ref, Ordinary s.code := fun s => ordinary_toString s.index
  cases token with
  | text s => exact ordinary_of_all (Bool.and_eq_true_iff.mp hinert).1
  | number n => exact ordinary_toString n
  | integer n => exact ordinary_toString_int n.toInt
  | comment name => exact absurd rfl (hcomment name)
  | opening | closing | send => exact ordinary_of_all rfl
  | raw s => exact hkept.elim
  | declare n => exact ordinary_join (hfixed rfl (hcons (htemp n) hempty))
  | use n => exact htemp n
  | slot depth index name =>
    refine ordinary_join (hcons ?_ (hfixed rfl (hcons (ordinary_toString _) (hfixed rfl hempty))))
    split
    · exact ordinary_of_all rfl
    · exact ordinary_join (hfixed rfl (hcons (ordinary_toString _) (hfixed rfl hempty)))
  | symbol s | string s | global s =>
    exact ordinary_join (hfixed rfl (hcons (href s) (hfixed rfl hempty)))
  | message s => exact href s
  | method name f =>
    exact ordinary_join (hfixed rfl (hcons (href name) (hfixed rfl
      (hcons f.ordinary_code hempty))))
  | closure f => exact ordinary_join (hfixed rfl (hcons f.ordinary_code hempty))
  | function f => exact f.ordinary_code

/-- A token is read as what is left of it. -/
theorem clean_token {token : Token} (hkept : token.Kept) (hinert : token.isInert = true)
    (rest : List Char) : clean (token.code.toList ++ rest) = token.bare ++ clean rest := by
  cases token with
  | comment name => exact clean_comment hkept rest
  | _ => exact clean_append (Token.ordinary_code hkept hinert nofun) rest

/-- The tokens are read as what is left of them. -/
theorem clean_tokens {tokens : List Token} (hkept : ∀ token ∈ tokens, token.Kept)
    (hinert : ∀ token ∈ tokens, token.isInert = true) (rest : List Char) :
    clean (tokens.flatMap (·.code.toList) ++ rest) = tokens.flatMap Token.bare ++ clean rest := by
  induction tokens with
  | nil => rfl
  | cons token tokens ih =>
    rw [List.forall_mem_cons] at hkept hinert
    rw [List.flatMap_cons, List.append_assoc, clean_token hkept.1 hinert.1, ih hkept.2 hinert.2,
      List.flatMap_cons, List.append_assoc]

/-! ## Words of tokens -/

/-- No word goes on behind the token. -/
def Token.endsWord (token : Token) : Bool := token.bare.getLast?.all (!isWordChar ·)

/-- No word goes on from before the token. -/
def Token.startsWord (token : Token) : Bool := token.bare.head?.any (!isWordChar ·)

/-- The ends of fixed text are seen on its characters, which need not be decoded for that. -/
theorem endsWord_text {cs : List Char} (h : cs.getLast?.all (!isWordChar ·) = true) :
    (Token.text (String.ofList cs)).endsWord = true := by
  rw [Token.endsWord, Token.bare, Token.code, String.toList_ofList, h]
  nofun

theorem startsWord_text {cs : List Char} (h : cs.head?.any (!isWordChar ·) = true) :
    (Token.text (String.ofList cs)).startsWord = true := by
  rw [Token.startsWord, Token.bare, Token.code, String.toList_ofList, h]
  nofun

/-- No word goes on from one token to the next. -/
def Parted (tokens : List Token) : Prop :=
  tokens.IsChain fun a b => a.endsWord = true ∨ b.startsWord = true

/-- A comment that is read as a blank has no words. -/
theorem words_bare (token : Token) : words token.bare = token.words := by
  cases token with
  | comment name => exact words_of_blank fun c hc => List.mem_singleton.mp hc ▸ rfl
  | _ => rfl

/-- **Tokens that no word joins have the words of each.** -/
theorem Parted.words_flatMap {tokens : List Token} (h : Parted tokens) :
    words (tokens.flatMap Token.bare) = tokens.flatMap Token.words := by
  induction tokens with
  | nil => exact words_of_blank nofun
  | cons token tokens ih =>
    rw [List.flatMap_cons, List.flatMap_cons, words_append, words_bare, ih h.tail]
    intro x hx y hy
    cases tokens with
    | nil => cases hy
    | cons next tokens =>
      rcases (List.isChain_cons_cons.mp h).1 with hends | hstarts
      · rw [Token.endsWord, Option.mem_def.mp hx] at hends
        simp_all [sameWord]
      · -- the next token is not empty, so that its first character is the next one
        obtain ⟨c, hc, hword⟩ := (Option.any_eq_true ..).mp hstarts
        rw [List.flatMap_cons, List.head?_append, Option.mem_def.mp hc] at hy
        cases hy
        simp_all [sameWord]

/-! ## Words that matter -/

/-- The words of this text that matter are among those that `shows` lets pass. -/
def Shown (shows : String → Bool) (text : String) : Prop :=
  ∀ word ∈ words text.toList, telling word = true → shows word = true

/-- A name or a number is one word. -/
theorem words_of_isWordChar {s : String} (hne : s.toList ≠ [])
    (h : ∀ c ∈ s.toList, isWordChar c = true) : words s.toList = [s] := by
  have hchain : s.toList.IsChain fun a b => sameWord a b = true := by
    refine (List.pairwise_of_forall_mem_list fun a ha b hb => ?_).isChain
    simp [sameWord, h a ha, h b hb]
  have hvisible : s.toList.any (!·.isWhitespace) = true := by
    obtain ⟨c, rest, heq⟩ := List.exists_cons_of_ne_nil hne
    have hc := h c (heq ▸ List.mem_cons_self ..)
    have hblank : [' ', '\t', '\r', '\n'].any isWordChar = false := rfl
    have hspace : c.isWhitespace = false := by
      by_contra hspace
      have hmem : c ∈ [' ', '\t', '\r', '\n'] := by
        simp only [Char.isWhitespace, Bool.not_eq_false, Bool.or_eq_true, decide_eq_true_eq]
          at hspace
        simpa [or_assoc] using hspace
      exact List.any_eq_false.mp hblank c hmem hc
    simp [heq, hspace]
  rw [words, List.splitBy_of_isChain hne hchain]
  simp [hvisible]

/-- A word that matters starts with one of these characters. -/
theorem telling_eq_false {word : String} {c : Char} (h : word.toList.head? = some c)
    (hc : c ∉ ['t', '\x7b', '\x7d', 'v', 'r']) : telling word = false := by
  have htemp : isTempName word = false := by
    unfold isTempName
    split
    · rename_i heq
      rw [heq] at h
      cases h
      exact absurd (by decide) hc
    · rfl
  have hlist : ∀ other ∈ ["\x7b", "\x7d", "vars", "rt_env_at", "rt_str", "rt_sym", "rt_globals",
      "rt_send", "rt_define_method", "rt_closure_new"],
      other.toList.head?.all (['t', '\x7b', '\x7d', 'v', 'r'].contains ·) = true := by decide
  unfold telling
  rw [htemp, Bool.false_or, decide_eq_false_iff_not]
  exact fun hword => hc (List.contains_iff_mem.mp ((Option.all_eq_true ..).mp (hlist word hword) c h))

/-- A number is no word that matters, nor is what starts a name of a function. -/
theorem shown_word {shows : String → Bool} {s : String} {c : Char} (h : s.toList.head? = some c)
    (hs : ∀ c ∈ s.toList, isWordChar c = true) (hc : c ∉ ['t', '\x7b', '\x7d', 'v', 'r']) :
    Shown shows s := by
  intro word hword htelling
  have hne : s.toList ≠ [] := fun hnil => by rw [hnil] at h; cases h
  rw [words_of_isWordChar hne hs, List.mem_singleton] at hword
  rw [hword, telling_eq_false h hc] at htelling
  cases htelling

/-- Pieces of text that no word joins. -/
theorem shown_join {shows : String → Bool} {parts : List String}
    (h : ∀ s ∈ parts, Shown shows s) (hparted : Parted (parts.map .text)) :
    Shown shows (String.join parts) := by
  have hchars : (parts.map .text).flatMap Token.bare = (String.join parts).toList := by
    clear h hparted
    induction parts with
    | nil => rfl
    | cons s parts ih =>
      rw [List.map_cons, List.flatMap_cons, ih, String.join_cons, String.toList_append]
      rfl
  intro word hword
  rw [← hchars, hparted.words_flatMap] at hword
  obtain ⟨token, htoken, hword⟩ := List.mem_flatMap.mp hword
  obtain ⟨s, hs, rfl⟩ := List.mem_map.mp htoken
  exact h s hs word hword

/-- Two texts show what each of them shows, if no word goes on from one to the other. -/
theorem shown_append {shows : String → Bool} {a b : String} (ha : Shown shows a)
    (hb : Shown shows b) (hends : (Token.text a).endsWord = true) : Shown shows (a ++ b) := by
  have hjoin : String.join [a, b] = a ++ b := by simp
  rw [← hjoin]
  exact shown_join (by simp [ha, hb]) (List.isChain_pair.mpr (.inl hends))

theorem shown_toString {shows : String → Bool} (n : Nat) : Shown shows (toString n) := by
  have hne : (toString n).toList ≠ [] := by
    rw [show (toString n).toList = Nat.toDigits 10 n from Nat.toList_repr]
    exact Nat.toDigits_ne_nil
  obtain ⟨c, rest, heq⟩ := List.exists_cons_of_ne_nil hne
  have hdigit := (isWordChar_of_mem_toString (heq ▸ List.mem_cons_self ..)).1
  refine shown_word (c := c) (by rw [heq]; rfl) (fun _ hc => (isWordChar_of_mem_toString hc).2) ?_
  have hothers : ['t', '\x7b', '\x7d', 'v', 'r'].any Char.isDigit = false := rfl
  exact fun hc => List.any_eq_false.mp hothers c hc hdigit

/-- No function has the name of a temp, or of a part of a reference. -/
theorem FunctionName.shown_code {shows : String → Bool} (f : FunctionName) :
    Shown shows f.code := by
  have hall : ∀ c ∈ f.code.toList, isWordChar c = true := fun _ hc => isWordChar_of_mem_code hc
  cases f with
  | main => exact shown_word (c := 'c') rfl hall (by decide)
  | method number name =>
    exact shown_word (c := 'm') (by simp [FunctionName.code]) hall (by decide)
  | block number => exact shown_word (c := 'b') (by simp [FunctionName.code]) hall (by decide)

/-- The name of a temp is the one word that it shows. -/
theorem shown_tempName {shows : String → Bool} {n : Nat} (h : shows (tempName n) = true) :
    Shown shows (tempName n) := by
  have hall : ∀ c ∈ (tempName n).toList, isWordChar c = true := by
    intro c hc
    rw [tempName, String.toList_append] at hc
    rcases List.mem_append.mp hc with hc | hc
    · exact List.mem_singleton.mp hc ▸ rfl
    · exact (isWordChar_of_mem_toString hc).2
  intro word hword _
  rw [words_of_isWordChar (by simp [tempName]) hall, List.mem_singleton] at hword
  rw [hword, h]

/-- Fixed text without a word that matters. -/
theorem shown_fixed {shows : String → Bool} {cs : List Char}
    (h : (words cs).all (!telling ·) = true) : Shown shows (String.ofList cs) := by
  intro word hword htelling
  rw [String.toList_ofList] at hword
  have hwords := List.all_eq_true.mp h word hword
  rw [htelling] at hwords
  cases hwords

/-- Fixed text with the words that the token shows. -/
theorem shown_text {shows : String → Bool} {cs : List Char}
    (h : (words cs).all (fun word => !telling word || shows word) = true) :
    Shown shows (String.ofList cs) := by
  intro word hword htelling
  rw [String.toList_ofList] at hword
  simpa [htelling] using List.all_eq_true.mp h word hword

/-- **A word that matters stands in a token that has the shape for it.** -/
theorem Token.shown {token : Token} (hkept : token.Kept) (hinert : token.isInert = true) :
    ∀ word ∈ token.words, telling word = true → token.shows word = true := by
  -- a number or a name behind fixed text, and one with more fixed text behind it
  have hlast : ∀ {shows : String → Bool} {a s : String}, Shown shows a → Shown shows s →
      (Token.text a).endsWord = true → Shown shows (String.join [a, s]) := fun ha hs hends =>
    shown_join (by simp [ha, hs]) (List.isChain_pair.mpr (.inl hends))
  have hbetween : ∀ {shows : String → Bool} {a s b : String}, Shown shows a → Shown shows s →
      Shown shows b → (Token.text a).endsWord = true → (Token.text b).startsWord = true →
      Shown shows (String.join [a, s, b]) := fun ha hs hb hends hstarts =>
    shown_join (by simp [ha, hs, hb])
      (List.isChain_cons_cons.mpr ⟨.inl hends, List.isChain_pair.mpr (.inr hstarts)⟩)
  cases token with
  | text s =>
    rw [← String.ofList_toList (s := s)]
    exact shown_fixed (Bool.and_eq_true_iff.mp hinert).2
  | number n => exact shown_toString n
  | integer n =>
    show Shown _ (toString n.toInt)
    cases n.toInt with
    | ofNat n => exact shown_toString n
    | negSucc n =>
      exact shown_append (a := "-") (shown_fixed (by decide +kernel)) (shown_toString (n + 1))
        (endsWord_text rfl)
  | comment name => exact nofun
  | opening =>
    have hbrace : Shown (· = "\x7b") "\x7b" := shown_text (by decide +kernel)
    exact hbrace
  | closing =>
    have hbrace : Shown (· = "\x7d") "\x7d" := shown_text (by decide +kernel)
    exact hbrace
  | send =>
    have hcall : Shown (· = "rt_send") "rt_send(" := shown_text (by decide +kernel)
    exact hcall
  | raw s => exact hkept.elim
  | declare n =>
    exact hlast (shown_fixed (by decide +kernel)) (shown_tempName (by simp [shows]))
      (endsWord_text rfl)
  | use n => exact shown_tempName (by simp [shows])
  | slot depth index name =>
    have henv : Shown (Token.shows (.slot depth index name)) (if depth = 0 then "env"
        else String.join ["rt_env_at(env, ", toString depth, ")"]) := by
      have hcall : Shown (fun word => word = "vars" || word = "rt_env_at") "rt_env_at(env, " :=
        shown_text (by decide +kernel)
      split
      · exact shown_fixed (by decide +kernel)
      · exact hbetween hcall (shown_toString depth) (shown_fixed (by decide +kernel))
          (endsWord_text rfl) (startsWord_text rfl)
    have hvars : Shown (fun word => word = "vars" || word = "rt_env_at") "->vars[" :=
      shown_text (by decide +kernel)
    refine shown_join ?_ (List.isChain_cons_cons.mpr ⟨.inr (startsWord_text rfl),
      List.isChain_cons_cons.mpr ⟨.inl (endsWord_text rfl),
        List.isChain_pair.mpr (.inr (startsWord_text rfl))⟩⟩)
    simp only [List.forall_mem_cons]
    exact ⟨henv, hvars, shown_toString _, shown_fixed (by decide +kernel), nofun⟩
  | symbol s =>
    have hcall : Shown (· = "rt_sym") "rt_sym(" := shown_text (by decide +kernel)
    exact hbetween hcall (shown_toString s.index) (shown_fixed (by decide +kernel))
      (endsWord_text rfl) (startsWord_text rfl)
  | string s =>
    have hcall : Shown (· = "rt_str") "rt_str(" := shown_text (by decide +kernel)
    exact hbetween hcall (shown_toString s.index) (shown_fixed (by decide +kernel))
      (endsWord_text rfl) (startsWord_text rfl)
  | global s =>
    have hcall : Shown (· = "rt_globals") "rt_globals[" := shown_text (by decide +kernel)
    exact hbetween hcall (shown_toString s.index) (shown_fixed (by decide +kernel))
      (endsWord_text rfl) (startsWord_text rfl)
  | message s => exact shown_toString s.index
  | method name f =>
    have hcall : Shown (· = "rt_define_method") "rt_define_method(" := shown_text (by decide +kernel)
    refine shown_join ?_ (List.isChain_cons_cons.mpr ⟨.inl (endsWord_text rfl),
      List.isChain_cons_cons.mpr ⟨.inr (startsWord_text rfl),
        List.isChain_pair.mpr (.inl (endsWord_text rfl))⟩⟩)
    simp only [List.forall_mem_cons]
    exact ⟨hcall, shown_toString _, shown_fixed (by decide +kernel), f.shown_code, nofun⟩
  | closure f =>
    have hcall : Shown (· = "rt_closure_new") "rt_closure_new(" := shown_text (by decide +kernel)
    exact hlast hcall f.shown_code (endsWord_text rfl)
  | function f => exact f.shown_code

/-! ## Laid out lines -/

/-- The line is parted, and no word that matters stands in its fixed text. -/
structure Laid (line : Line) : Prop where
  parted : Parted line
  inert : ∀ token ∈ line, token.isInert = true

section

variable {a b : Line} {x y : Token}

theorem laid_nil : Laid [] := ⟨List.isChain_nil, nofun⟩

theorem laid_singleton (hx : x.isInert = true) : Laid [x] :=
  ⟨List.isChain_singleton x, fun _ h => List.mem_singleton.mp h ▸ hx⟩

/-- A token in front that a word ends in. -/
theorem laid_cons (hx : x.isInert = true) (hends : x.endsWord = true) (hb : Laid b) :
    Laid (x :: b) :=
  ⟨List.isChain_cons.mpr ⟨fun _ _ => .inl hends, hb.parted⟩,
    List.forall_mem_cons.mpr ⟨hx, hb.inert⟩⟩

/-- Fixed text alone. Its characters are given, so that it need not be decoded to be looked at. -/
theorem laid_fixed {cs : List Char} (hcs : isInertText cs = true) :
    Laid [.text (String.ofList cs)] :=
  laid_singleton (by rw [Token.isInert, String.toList_ofList, hcs])

/-- Fixed text in front. -/
theorem laid_text {cs : List Char}
    (hcs : (isInertText cs && cs.getLast?.all (!isWordChar ·)) = true) (hb : Laid b) :
    Laid (.text (String.ofList cs) :: b) := by
  obtain ⟨hinert, hends⟩ := Bool.and_eq_true_iff.mp hcs
  refine laid_cons ?_ (endsWord_text hends) hb
  rw [Token.isInert, String.toList_ofList, hinert]

/-- A token behind that a word starts with. -/
theorem Laid.append (ha : Laid a) (hstarts : y.startsWord = true) (hb : Laid (y :: b)) :
    Laid (a ++ y :: b) := by
  refine ⟨List.isChain_append.mpr ⟨ha.parted, hb.parted, fun _ _ z hz => ?_⟩,
    List.forall_mem_append.mpr ⟨ha.inert, hb.inert⟩⟩
  cases hz
  exact .inr hstarts

end

theorem Atom.laid (a : Atom) : Laid a.tokens := by
  cases a with
  | int n =>
    show Laid (if _ then _ else _)
    split
    · exact laid_fixed (by decide +kernel)
    · refine laid_text (by decide +kernel) ?_
      exact (laid_singleton rfl).append (startsWord_text rfl) (laid_fixed (by decide +kernel))
  | arg index =>
    refine laid_text (by decide +kernel) ?_
    exact (laid_singleton rfl).append (startsWord_text rfl) (laid_fixed (by decide +kernel))
  | bool b => cases b <;> exact laid_fixed (by decide +kernel)
  | nil | self => exact laid_fixed (by decide +kernel)
  | str | sym | verbatim => exact laid_singleton rfl

theorem Operand.laid (v : Operand) : Laid v.tokens := by
  cases v with
  | literal a => exact a.laid
  | temp n => exact laid_singleton rfl

theorem Storage.laid (place : Storage) : Laid place.tokens := by
  cases place with
  | «local» depth index name =>
    exact (laid_singleton rfl).append (startsWord_text rfl)
      (laid_text (by decide +kernel) (laid_singleton rfl))
  | global => exact laid_singleton rfl

/-- A comma between. -/
theorem Laid.comma {a b : Line} (ha : Laid a) (hb : Laid b) : Laid (a ++ .text ", " :: b) :=
  ha.append (startsWord_text rfl) (laid_text (by decide +kernel) hb)

theorem laid_listTokens (args : List Operand) : Laid (listTokens args) := by
  induction args with
  | nil => exact laid_nil
  | cons v rest ih =>
    cases rest with
    | nil => exact v.laid
    | cons w rest => exact v.laid.comma ih

/-- An array of arguments is laid out between its braces. -/
theorem laid_argTokens (args : List Operand) : Laid (argTokens args) := by
  cases args with
  | nil => exact laid_fixed (by decide +kernel)
  | cons v rest =>
    refine laid_text (by decide +kernel) (laid_cons rfl (by decide +kernel) ?_)
    exact (laid_listTokens _).append (by decide +kernel) (laid_singleton rfl)

theorem laid_optionTokens (o : Option Operand) (other : String)
    (hother : Token.isInert (.text other) = true) : Laid (optionTokens o other) := by
  cases o with
  | none => exact laid_singleton hother
  | some v => exact v.laid

theorem Rhs.laid (value : Rhs) : Laid value.tokens := by
  cases value with
  | load place => exact place.laid
  | send receiver message args block =>
    have hflag : ∀ known : Bool, let flag : Token := .text (if known then ", 1, " else ", 0, ")
        flag.isInert = true ∧ flag.endsWord = true ∧ flag.startsWord = true := by decide +kernel
    have hrest : Laid (.text (if receiver.isSome then ", 1, " else ", 0, ") :: .message message ::
        .text " " :: .comment message.text :: .text ", " :: .number args.length :: .text ", " ::
        (argTokens args ++ .text ", " :: (optionTokens block "rt_nil()" ++ [.text ")"]))) := by
      have hblock := (laid_optionTokens block "rt_nil()" (by decide +kernel)).append
        (y := .text ")") (by decide +kernel) (laid_fixed (by decide +kernel))
      have hargs := (laid_singleton (x := .number args.length) rfl).comma
        ((laid_argTokens args).comma hblock)
      have hmessage := (laid_singleton (x := .message message) rfl).append (y := .text " ")
        (by decide +kernel) (laid_text (by decide +kernel)
          ((laid_singleton (x := .comment message.text) rfl).comma hargs))
      exact laid_cons (hflag _).1 (hflag _).2.1 hmessage
    exact laid_cons rfl (by decide +kernel)
      ((laid_optionTokens receiver "self" (by decide +kernel)).append (hflag _).2.2 hrest)
  | yield args =>
    refine laid_text (by decide +kernel) ((laid_singleton (x := .number args.length) rfl).comma ?_)
    exact (laid_argTokens args).append (startsWord_text rfl) (laid_fixed (by decide +kernel))
  | closure f =>
    refine laid_text (by decide +kernel) ?_
    exact (laid_singleton rfl).append (startsWord_text rfl) (laid_fixed (by decide +kernel))
  | verbatim code => exact laid_singleton rfl

/-- The end of a statement. -/
theorem Laid.semicolon {line : Line} (h : Laid line) : Laid (line ++ [.text ";"]) :=
  h.append (startsWord_text rfl) (laid_fixed (by decide +kernel))

/-- An assignment. -/
theorem Laid.equals {a b : Line} (ha : Laid a) (hb : Laid b) : Laid (a ++ .text " = " :: b) :=
  ha.append (startsWord_text rfl) (laid_text (by decide +kernel) hb)

theorem Stmt.laid_tokens (s : Stmt) : Laid s.tokens := by
  cases s with
  | declare t value => exact (laid_singleton rfl).equals value.laid.semicolon
  | eval value => exact value.laid.semicolon
  | declareNil t =>
    exact (laid_singleton rfl).append (startsWord_text rfl) (laid_fixed (by decide +kernel))
  | assign t v => exact (laid_singleton rfl).equals v.laid.semicolon
  | store place v => exact place.laid.equals v.laid.semicolon
  | defineMethod name f =>
    exact (laid_singleton rfl).append (startsWord_text rfl) (laid_fixed (by decide +kernel))
  | checkArgs expected =>
    refine laid_text (by decide +kernel) ?_
    exact (laid_singleton rfl).append (startsWord_text rfl) (laid_fixed (by decide +kernel))
  | ret v => exact laid_text (by decide +kernel) v.laid.semicolon
  | setVisibility v => cases v <;> exact laid_fixed (by decide +kernel)
  | breakLoop | continueLoop | exit => exact laid_fixed (by decide +kernel)
  | verbatim line => exact laid_singleton rfl
  | ifElse | loop | indented => exact laid_nil

/-- Space before a line. -/
theorem Laid.padded {line : Line} (h : Laid line) (k : Nat) : Laid (.text (pad k) :: line) := by
  have hspace : ∀ c ∈ (pad k).toList, c = ' ' := by
    induction k with
    | zero => exact nofun
    | succ k ih =>
      rw [pad, String.toList_append]
      exact List.forall_mem_append.mpr ⟨ih, fun c hc => List.eq_of_mem_replicate (n := 4) hc⟩
  refine laid_cons ?_ ?_ h
  · have hwords : words (pad k).toList = [] := words_of_blank fun c hc => hspace c hc ▸ rfl
    have hordinary : Ordinary (pad k) := fun c hc => hspace c hc ▸ rfl
    rw [Token.isInert, isInertText, hwords, List.all_eq_true.mpr hordinary]
    rfl
  · unfold Token.endsWord Token.bare Token.code
    cases hlast : (pad k).toList.getLast? with
    | none => rfl
    | some c =>
      rw [hspace c (List.mem_of_getLast? hlast)]
      rfl

theorem laid_condition (c : Operand) : Laid (c.tokens ++ [.text ")) ", .opening]) ∧
    Laid (c.tokens ++ [.text ")) break;"]) :=
  ⟨c.laid.append (startsWord_text rfl) (laid_text (by decide +kernel) (laid_singleton rfl)),
    c.laid.append (startsWord_text rfl) (laid_fixed (by decide +kernel))⟩

mutual

/-- The lines of a statement are laid out. -/
theorem Stmt.laid_layout (k : Nat) (s : Stmt) : ∀ line ∈ Stmt.layout k s, Laid line := by
  by_cases hs : s.isLine = true
  · rw [Stmt.layout_of_isLine hs]
    exact List.forall_mem_singleton.mpr (s.laid_tokens.padded k)
  · have hclose : Laid (closeLine k) := (laid_singleton rfl).padded k
    cases s with
    | ifElse c yes no =>
      have hif : Laid (ifLine k c) := (laid_text (by decide +kernel) (laid_condition c).1).padded k
      have helse : Laid (elseLine k) := ((laid_singleton rfl).append (startsWord_text rfl)
        (laid_text (by decide +kernel) (laid_singleton rfl))).padded k
      simp only [Stmt.layout, List.forall_mem_cons, List.forall_mem_append]
      exact ⟨hif, Stmt.laid_layouts (k + 1) yes, helse, Stmt.laid_layouts (k + 1) no, hclose, nofun⟩
    | loop test c body =>
      have hloop : Laid (loopLine k) :=
        (laid_text (by decide +kernel) (laid_singleton rfl)).padded k
      have htest : Laid (testLine (k + 1) c) :=
        (laid_text (by decide +kernel) (laid_condition c).2).padded (k + 1)
      simp only [Stmt.layout, List.forall_mem_cons, List.forall_mem_append]
      exact ⟨hloop, Stmt.laid_layouts (k + 1) test, htest, Stmt.laid_layouts (k + 1) body, hclose,
        nofun⟩
    | indented lines =>
      simp only [Stmt.layout, List.forall_mem_map]
      exact fun line _ => (laid_singleton rfl).padded (k + 1)
    | _ => exact absurd rfl hs

theorem Stmt.laid_layouts (k : Nat) (stmts : List Stmt) :
    ∀ line ∈ Stmt.layouts k stmts, Laid line := by
  cases stmts with
  | nil => exact nofun
  | cons s rest =>
    rw [Stmt.layouts]
    exact List.forall_mem_append.mpr ⟨Stmt.laid_layout k s, Stmt.laid_layouts k rest⟩

end

theorem Function.laid_head (f : Function) : Laid f.head := by
  unfold Function.head
  cases f.name with
  | main | method | block =>
    exact laid_text (by decide +kernel) ((laid_singleton rfl).append (startsWord_text rfl)
      (laid_text (by decide +kernel) (laid_singleton rfl)))

theorem Function.laid_setup (f : Function) : ∀ line ∈ f.setup, Laid line := by
  -- the line that makes the environment
  have hnew : ∀ {cs : List Char}, (isInertText cs && cs.getLast?.all (!isWordChar ·)) = true →
      Laid [.text (String.ofList cs), .number f.envSize, .text ");"] := fun hcs =>
    laid_text hcs ((laid_singleton (x := .number f.envSize) rfl).append (startsWord_text rfl)
      (laid_fixed (by decide +kernel)))
  unfold Function.setup
  cases f.name with
  | main | method =>
    simp only [List.forall_mem_append, List.forall_mem_singleton]
    exact ⟨hnew (by decide +kernel), laid_fixed (by decide +kernel)⟩
  | block =>
    simp only [List.forall_mem_append, List.forall_mem_cons]
    exact ⟨⟨laid_fixed (by decide +kernel), laid_fixed (by decide +kernel), hnew (by decide +kernel), nofun⟩,
      laid_fixed (by decide +kernel), nofun⟩

/-- **The lines of a function are laid out** so that no two words run together. -/
theorem Function.laid_layout (f : Function) : ∀ line ∈ f.layout, Laid line := by
  refine List.forall_mem_cons.mpr ⟨f.laid_head, List.forall_mem_append.mpr
    ⟨List.forall_mem_append.mpr ⟨?_, Stmt.laid_layouts 1 f.body⟩, ?_⟩⟩
  · exact List.forall_mem_map.mpr fun line hline => (f.laid_setup line hline).padded 1
  · exact List.forall_mem_singleton.mpr (laid_singleton rfl)

/-! ## Functions -/

/-- The lines of a function, one behind the other. -/
def Function.flat (f : Function) : Line := f.layout.flatMap (· ++ [.text "\n"])

/-- The text of a function is that of its tokens. -/
theorem Function.toList_text (f : Function) :
    (textOf f.lines).toList = f.flat.flatMap (·.code.toList) := by
  have hline : ∀ line : Line, (Line.text line).toList = line.flatMap (·.code.toList) := by
    intro line
    induction line with
    | nil => rfl
    | cons token line ih => rw [text_cons, String.toList_append, ih, List.flatMap_cons]
  rw [← f.text_layout, Function.flat]
  induction f.layout with
  | nil => rfl
  | cons line rest ih =>
    unfold textOf at ih ⊢
    rw [List.map_cons, List.map_cons, String.join_cons, String.toList_append, String.toList_append,
      ih, hline, List.flatMap_cons, List.flatMap_append, List.flatMap_append, List.flatMap_singleton]
    rfl

theorem Function.wordsRead_text (f : Function) :
    wordsRead (textOf f.lines) = words (clean (f.flat.flatMap (·.code.toList))) := by
  rw [wordsRead, f.toList_text]

theorem Function.laid_flat (f : Function) : Laid f.flat := by
  have h := f.laid_layout
  unfold Function.flat
  generalize f.layout = lines at h ⊢
  induction lines with
  | nil => exact laid_nil
  | cons line rest ih =>
    rw [List.forall_mem_cons] at h
    rw [List.flatMap_cons, List.append_assoc]
    exact h.1.append (startsWord_text rfl) (laid_text (by decide +kernel) (ih h.2))

/-- Line ends have no words. -/
theorem Function.words_flat (f : Function) :
    f.flat.flatMap Token.words = f.layout.flatten.flatMap Token.words := by
  have hnewline : Token.words (.text "\n") = [] := by decide +kernel
  unfold Function.flat
  induction f.layout with
  | nil => rfl
  | cons line rest ih =>
    simp only [List.flatMap_cons, List.flatMap_append, List.flatten_cons, ih, hnewline]
    simp

/-- **C reads a function as it is laid out**, when its comments are kept. -/
theorem Function.readAsLaidOut_of_kept {f : Function}
    (h : ∀ token ∈ f.layout.flatten, token.Kept) : f.ReadAsLaidOut := by
  have hlaid := f.laid_flat
  have hkept : ∀ token ∈ f.flat, token.Kept := by
    intro token htoken
    obtain ⟨line, hline, hmem⟩ := List.mem_flatMap.mp htoken
    rcases List.mem_append.mp hmem with hmem | hmem
    · exact h token (List.mem_flatten.mpr ⟨line, hline, hmem⟩)
    · exact List.mem_singleton.mp hmem ▸ trivial
  -- the text ends with a line, so that what stands behind it starts with a word of its own
  have hlast : (f.flat.flatMap Token.bare).getLast? = some '\n' := by
    have hshape : f.layout = (f.head :: (f.setup.map (.text (pad 1) :: ·) ++ Stmt.layouts 1 f.body))
        ++ [[.closing]] := rfl
    rw [Function.flat, hshape, List.flatMap_append, List.flatMap_append, List.getLast?_append]
    rfl
  constructor
  · intro rest
    rw [f.toList_text, clean_tokens hkept hlaid.inert, words_append, hlaid.parted.words_flatMap,
      f.words_flat]
    intro x hx y hy
    rw [hlast] at hx
    cases hx
    rfl
  · intro token htoken
    obtain ⟨line, hline, hmem⟩ := List.mem_flatten.mp htoken
    exact Token.shown (h token htoken) ((f.laid_layout line hline).inert token hmem)

end StackCode.CUnit
