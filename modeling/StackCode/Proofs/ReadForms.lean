import Mathlib.Control.Monad.Basic
import Mathlib.Data.List.Basic
import StackCode.Proofs.Grammar

/-!
# The reader accepts its grammar

The reader goes through the lexemes once, deciding by the next one. Two facts about each of its
parts say what it takes: whatever it takes is written by the grammar (`Sound`), and what the grammar
writes is taken, up to what follows it (`Accepts`). Both are kept when parts are put together, so
that the proof for a form follows its rule.

A reader that refuses may have taken something before; it gives no result, and so nothing is said
of it.
-/

namespace StackCode

open Grammar

/-- The tokens still to be read. -/
def Cursor.tokens (c : Cursor) : List Token := c.rest.map (·.token)

/-- A cursor at some token has a lexeme there. -/
theorem Cursor.of_tokens_cons {c : Cursor} {t : Token} {ts : List Token}
    (h : c.tokens = t :: ts) : ∃ p rest last, c = ⟨⟨t, p⟩ :: rest, last⟩ ∧
      rest.map (·.token) = ts := by
  obtain ⟨rest, last⟩ := c
  obtain ⟨⟨t, p⟩, rest, rfl, rfl, hts⟩ := List.map_eq_cons_iff.mp h
  exact ⟨p, rest, last, rfl, hts⟩

namespace Reader

variable {α β : Type} {ts us vs : List Token}

theorem bind_eq {x : Reader α} {f : α → Reader β} (c : Cursor) :
    (x >>= f) c = (x c).bind fun r => f r.1 r.2 := rfl

/-- Readers in sequence succeed one after the other. -/
theorem of_bind_eq_ok {x : Reader α} {f : α → Reader β} {c : Cursor} {r : β × Cursor}
    (h : (x >>= f) c = .ok r) : ∃ a c', x c = .ok (a, c') ∧ f a c' = .ok r := by
  rw [bind_eq] at h
  cases hc : x c with
  | error e =>
    rw [hc] at h
    cases h
  | ok p =>
    rw [hc] at h
    exact ⟨p.1, p.2, rfl, h⟩

/-! ## What a reader takes -/

/-- Whatever the reader takes is what `P` says of its result. -/
def Sound (x : Reader α) (P : α → List Token → Prop) : Prop :=
  ∀ c a c', x c = .ok (a, c') → ∃ ts, c.tokens = ts ++ c'.tokens ∧ P a ts

section

variable {x : Reader α} {f : α → Reader β} {P : α → List Token → Prop}
  {Q : β → List Token → Prop}

theorem sound_pure {a : α} (h : P a []) : Sound (pure a) P := by
  intro c b c' heq
  cases heq
  exact ⟨[], rfl, h⟩

theorem sound_fail (cause : ReadError.Cause) : Sound (fail cause) P := by
  intro c a c' h
  cases h

/-- What is taken in sequence is written in sequence. -/
theorem Sound.bind (hx : Sound x P)
    (hf : ∀ a ts, P a ts → Sound (f a) fun b us => Q b (ts ++ us)) : Sound (x >>= f) Q := by
  intro c b c'' h
  obtain ⟨a, c', hxc, hfc⟩ := of_bind_eq_ok h
  obtain ⟨ts, hts, hP⟩ := hx c a c' hxc
  obtain ⟨us, hus, hQ⟩ := hf a ts hP c' b c'' hfc
  exact ⟨ts ++ us, by rw [hts, hus, List.append_assoc], hQ⟩

end

theorem sound_take : Sound take fun t ts => ts = t.toList := by
  rintro ⟨rest, last⟩ t c' h
  cases rest with
  | nil =>
    cases h
    exact ⟨[], rfl, rfl⟩
  | cons x rest =>
    cases h
    exact ⟨[x.token], rfl, rfl⟩

/-- Looking ahead takes nothing. -/
theorem sound_atClose : Sound atClose fun _ ts => ts = [] := by
  intro c b c' h
  cases h
  exact ⟨[], rfl, rfl⟩

theorem sound_atEnd : Sound atEnd fun _ ts => ts = [] := by
  intro c b c' h
  cases h
  exact ⟨[], rfl, rfl⟩

theorem sound_openForm : Sound openForm fun _ ts => ts = [.lparen] := by
  rintro ⟨rest, last⟩ a c' h
  cases rest with
  | nil => cases h
  | cons x rest =>
    obtain ⟨t, p⟩ := x
    cases t with
    | lparen =>
      cases h
      exact ⟨[.lparen], rfl, rfl⟩
    | _ => cases h

theorem sound_closeForm (head : String) : Sound (closeForm head) fun _ ts => ts = [.rparen] := by
  rintro ⟨rest, last⟩ a c' h
  cases rest with
  | nil => cases h
  | cons x rest =>
    obtain ⟨t, p⟩ := x
    cases t with
    | rparen =>
      cases h
      exact ⟨[.rparen], rfl, rfl⟩
    | _ => cases h

/-- A name is one word. -/
theorem sound_word (what : String) : Sound (word what) Name := by
  rintro ⟨rest, last⟩ name c' h
  cases rest with
  | nil => cases h
  | cons x rest =>
    obtain ⟨t, p⟩ := x
    cases t with
    | atom s =>
      cases h
      exact ⟨[.atom name], rfl, rfl⟩
    | _ => cases h

theorem sound_globalName :
    Sound globalName fun name ts => name.toList.head? = some '$' ∧ Name name ts := by
  refine (sound_word _).bind fun name ts hname => ?_
  split
  · rename_i hglobal
    exact sound_pure ⟨hglobal, by rwa [List.append_nil]⟩
  · exact sound_fail _

/-- Items that follow those taken before. -/
theorem sound_untilClose {item : Reader α} {P : α → List Token → Prop} (hitem : Sound item P) :
    ∀ (n : Nat) (acc : List α),
      Sound (untilClose item n acc) fun as ts => ∃ bs, as = acc.reverse ++ bs ∧ Row P bs ts := by
  intro n
  induction n with
  | zero =>
    intro acc
    exact hitem.bind fun a ts ha => sound_pure ⟨[a], by simp, .cons ha .nil⟩
  | succ n ih =>
    intro acc
    refine sound_atClose.bind fun close ts hts => ?_
    subst hts
    split
    · exact sound_pure ⟨[], by simp, .nil⟩
    · refine hitem.bind fun a ts ha c as c' h => ?_
      obtain ⟨us, hus, bs, rfl, hbs⟩ := ih (a :: acc) c as c' h
      exact ⟨us, hus, a :: bs, by simp, by simpa using Row.cons ha hbs⟩

/-- Forms up to the closing parenthesis are a row. -/
theorem sound_sequence {expr : Reader Expr} {form : Expr → List Token → Prop}
    (hexpr : Sound expr form) (n : Nat) : Sound (sequence expr n) (Row form) := by
  have hitem : Sound (do if ← atEnd then fail .endInSequence else expr) form := by
    refine sound_atEnd.bind fun done ts hts => ?_
    subst hts
    split
    · exact sound_fail _
    · exact hexpr
  intro c as c' h
  obtain ⟨ts, hts, bs, rfl, hbs⟩ := sound_untilClose hitem n [] c as c' h
  exact ⟨ts, hts, hbs⟩

/-- Parameters stand in parentheses of their own. -/
theorem sound_params (n : Nat) : Sound (params n) Params := by
  refine sound_openForm.bind fun _ ts hts => (sound_word _).bind fun head us hus => ?_
  subst hts hus
  split
  · exact Sound.bind (P := fun _ _ => False) (sound_fail _) fun _ _ h => h.elim
  · rename_i hargs
    obtain rfl : head = "args" := Decidable.not_not.mp hargs
    refine (sound_untilClose (sound_word _) n []).bind fun names us hnames => ?_
    obtain ⟨names, rfl, hnames⟩ := hnames
    refine (sound_closeForm _).bind fun _ vs hvs => sound_pure ?_
    subst hvs
    exact Params.intro hnames

section

variable {expr : Reader Expr} {form : Expr → List Token → Prop}

theorem optional_of_ne {c : Cursor} (h : c.token? ≠ some (.atom "nil")) :
    optional expr c = (some <$> expr) c := by
  show (if c.token? = some (.atom "nil") then _ else some <$> expr : Reader (Option Expr)) c = _
  rw [if_neg h]

/-- A bare `nil` is the absence of a form. -/
theorem sound_optional (hexpr : Sound expr form) : Sound (optional expr) (OrNil form) := by
  intro c o c' h
  by_cases hnil : c.token? = some (.atom "nil")
  · obtain ⟨rest, last⟩ := c
    obtain ⟨⟨t, p⟩, hhead, rfl⟩ := Option.map_eq_some_iff.mp hnil
    obtain ⟨rest, rfl⟩ := List.head?_eq_some_iff.mp hhead
    cases h
    exact ⟨[.atom "nil"], rfl, .absent⟩
  · rw [optional_of_ne hnil] at h
    have hsome : Sound (some <$> expr) (OrNil form) :=
      hexpr.bind fun e ts he => sound_pure (by simpa using OrNil.present he)
    exact hsome c o c' h

theorem sound_trailing (hexpr : Sound expr form) : Sound (trailing expr) (Trailing form) := by
  refine sound_atClose.bind fun close ts hts => ?_
  subst hts
  split
  · exact sound_pure .absent
  · exact hexpr.bind fun e ts he => sound_pure (by simpa using Trailing.present he)

/-- **What follows a head** is what the grammar says of it. -/
theorem sound_formTail (hexpr : Sound expr form) (n : Nat) (head : String) :
    Sound (formTail expr n head) fun e ts => e.kind = head ∧ Tail form e ts := by
  unfold formTail
  split
  · refine sound_take.bind fun t ts hts => ?_
    subst hts
    split
    · exact sound_pure ⟨rfl, .int _⟩
    · exact sound_fail _
  · refine sound_take.bind fun t ts hts => ?_
    subst hts
    split
    · exact sound_pure ⟨rfl, .str _⟩
    · exact sound_fail _
  · refine (sound_word _).bind fun x ts hx => sound_pure ?_
    subst hx
    exact ⟨rfl, .sym x⟩
  · exact sound_pure ⟨rfl, .nil⟩
  · exact sound_pure ⟨rfl, .bool true⟩
  · exact sound_pure ⟨rfl, .bool false⟩
  · exact sound_pure ⟨rfl, .self⟩
  · refine (sound_word _).bind fun x ts hx => sound_pure ?_
    subst hx
    exact ⟨rfl, .var x⟩
  · refine (sound_word _).bind fun x ts hx => hexpr.bind fun e us he => sound_pure ?_
    subst hx
    exact ⟨rfl, by simpa using Tail.assign he⟩
  · refine sound_globalName.bind fun x ts hx => sound_pure ?_
    obtain ⟨hglobal, rfl⟩ := hx
    exact ⟨rfl, .gvar hglobal⟩
  · refine sound_globalName.bind fun x ts hx => hexpr.bind fun e us he => sound_pure ?_
    obtain ⟨hglobal, rfl⟩ := hx
    exact ⟨rfl, by simpa using Tail.gassign hglobal he⟩
  · refine (sound_optional hexpr).bind fun r ts hr => (sound_word _).bind fun x us hx =>
      (sound_sequence hexpr n).bind fun args vs hargs => sound_pure ?_
    subst hx
    exact ⟨rfl, by simpa using Tail.call hr hargs⟩
  · refine hexpr.bind fun call ts hcall => (sound_params n).bind fun xs us hxs =>
      (sound_sequence hexpr n).bind fun body vs hbody => ?_
    split
    · exact sound_pure ⟨rfl, by simpa using Tail.iter hcall hxs hbody⟩
    · exact sound_fail _
  · refine (sound_sequence hexpr n).bind fun args ts hargs => sound_pure ?_
    exact ⟨rfl, by simpa using Tail.yield hargs⟩
  · refine hexpr.bind fun test ts htest => (sound_optional hexpr).bind fun yes us hyes =>
      sound_atClose.bind fun close vs hvs => ?_
    subst hvs
    split
    · exact sound_pure ⟨rfl, by simpa using Tail.condThen htest hyes⟩
    · refine (sound_optional hexpr).bind fun no vs hno => sound_pure ?_
      exact ⟨rfl, by simpa using Tail.cond htest hyes hno⟩
  · refine hexpr.bind fun test ts htest => (sound_sequence hexpr n).bind fun body us hbody =>
      sound_pure ?_
    exact ⟨rfl, by simpa using Tail.loop htest hbody⟩
  · refine hexpr.bind fun left ts hleft => hexpr.bind fun right us hright => sound_pure ?_
    exact ⟨rfl, by simpa using Tail.conj hleft hright⟩
  · refine hexpr.bind fun left ts hleft => hexpr.bind fun right us hright => sound_pure ?_
    exact ⟨rfl, by simpa using Tail.disj hleft hright⟩
  · refine hexpr.bind fun operand ts hoperand => sound_pure ?_
    exact ⟨rfl, by simpa using Tail.neg hoperand⟩
  · refine (sound_sequence hexpr n).bind fun items ts hitems => sound_pure ?_
    exact ⟨rfl, by simpa using Tail.seq hitems⟩
  · refine (sound_trailing hexpr).bind fun value ts hvalue => sound_pure ?_
    exact ⟨rfl, by simpa using Tail.ret hvalue⟩
  · exact sound_pure ⟨rfl, .brk⟩
  · refine (sound_trailing hexpr).bind fun value ts hvalue => sound_pure ?_
    exact ⟨rfl, by simpa using Tail.next hvalue⟩
  · refine (sound_word _).bind fun x ts hx => (sound_params n).bind fun xs us hxs =>
      (sound_sequence hexpr n).bind fun body vs hbody => sound_pure ?_
    subst hx
    exact ⟨rfl, by simpa using Tail.method hxs hbody⟩
  · exact sound_fail _

end

/-- **What the reader takes for a form is one.** -/
theorem sound_readExpr (n : Nat) : Sound (readExpr n) Form := by
  induction n with
  | zero => exact sound_fail _
  | succ n ih =>
    refine sound_openForm.bind fun _ ts hts => (sound_word _).bind fun head us hus =>
      (sound_formTail ih n head).bind fun e vs he => (sound_closeForm head).bind fun _ ws hws =>
      sound_pure ?_
    subst hts hus hws
    obtain ⟨rfl, htail⟩ := he
    simpa using Form.intro htail

/-! ## What a reader accepts -/

/-- The reader takes `ts`, gives `a` and leaves `us`. -/
def Accepts (x : Reader α) (ts : List Token) (a : α) (us : List Token) : Prop :=
  ∀ c : Cursor, c.tokens = ts ++ us → ∃ c', x c = .ok (a, c') ∧ c'.tokens = us

theorem accepts_pure (a : α) (us : List Token) : Accepts (pure a) [] a us :=
  fun c hc => ⟨c, rfl, hc⟩

/-- What is written in sequence is taken in sequence, if the first reader stops in time. -/
theorem Accepts.bind {x : Reader α} {f : α → Reader β} {a : α} {b : β}
    (hx : Accepts x ts a (us ++ vs)) (hf : Accepts (f a) us b vs) :
    Accepts (x >>= f) (ts ++ us) b vs := by
  intro c hc
  rw [List.append_assoc] at hc
  obtain ⟨c', hxc, hc'⟩ := hx c hc
  obtain ⟨c'', hfc, hc''⟩ := hf c' hc'
  refine ⟨c'', ?_, hc''⟩
  rw [bind_eq, hxc]
  exact hfc

/-- What follows takes nothing more. -/
theorem Accepts.bind_nil {x : Reader α} {f : α → Reader β} {a : α} {b : β}
    (hx : Accepts x ts a us) (hf : Accepts (f a) [] b us) : Accepts (x >>= f) ts b us := by
  have hbind : Accepts (x >>= f) (ts ++ []) b us := hx.bind hf
  rwa [List.append_nil] at hbind

/-- The first part only looks at what comes. -/
theorem Accepts.look {x : Reader α} {f : α → Reader β} {a : α} {b : β}
    (hx : Accepts x [] a (ts ++ us)) (hf : Accepts (f a) ts b us) : Accepts (x >>= f) ts b us :=
  hx.bind hf

theorem Accepts.map {x : Reader α} {a : α} (h : Accepts x ts a us) (f : α → β) :
    Accepts (f <$> x) ts (f a) us := by
  show Accepts (x >>= fun a => pure (f a)) ts (f a) us
  exact h.bind_nil (accepts_pure (f a) us)

theorem accepts_take (t : Token) (us : List Token) : Accepts take [t] (some t) us := by
  intro c hc
  obtain ⟨p, rest, last, rfl, hrest⟩ := Cursor.of_tokens_cons hc
  exact ⟨⟨rest, some p⟩, rfl, hrest⟩

theorem accepts_atClose (us : List Token) : Accepts atClose [] true (.rparen :: us) := by
  intro c hc
  obtain ⟨p, rest, last, rfl, -⟩ := Cursor.of_tokens_cons hc
  exact ⟨_, rfl, hc⟩

/-- At any other token the row goes on. -/
theorem accepts_atClose_of_ne {t : Token} (ht : t ≠ .rparen) (us : List Token) :
    Accepts atClose [] false (t :: us) := by
  intro c hc
  obtain ⟨p, rest, last, rfl, -⟩ := Cursor.of_tokens_cons hc
  refine ⟨_, ?_, hc⟩
  show Except.ok (decide (some t = some .rparen), _) = _
  rw [decide_eq_false (by simpa using ht)]

theorem accepts_atEnd (us : List Token) : Accepts atEnd [] true (.eof :: us) := by
  intro c hc
  obtain ⟨p, rest, last, rfl, -⟩ := Cursor.of_tokens_cons hc
  exact ⟨_, rfl, hc⟩

theorem accepts_atEnd_of_ne {t : Token} (ht : t ≠ .eof) (us : List Token) :
    Accepts atEnd [] false (t :: us) := by
  intro c hc
  obtain ⟨p, rest, last, rfl, -⟩ := Cursor.of_tokens_cons hc
  refine ⟨_, ?_, hc⟩
  cases t with
  | eof => exact absurd rfl ht
  | _ => rfl

theorem accepts_openForm (us : List Token) : Accepts openForm [.lparen] () us := by
  intro c hc
  obtain ⟨p, rest, last, rfl, hrest⟩ := Cursor.of_tokens_cons hc
  exact ⟨⟨rest, some p⟩, rfl, hrest⟩

theorem accepts_closeForm (head : String) (us : List Token) :
    Accepts (closeForm head) [.rparen] () us := by
  intro c hc
  obtain ⟨p, rest, last, rfl, hrest⟩ := Cursor.of_tokens_cons hc
  exact ⟨⟨rest, some p⟩, rfl, hrest⟩

theorem accepts_word (what name : String) (us : List Token) :
    Accepts (word what) [.atom name] name us := by
  intro c hc
  obtain ⟨p, rest, last, rfl, hrest⟩ := Cursor.of_tokens_cons hc
  exact ⟨⟨rest, some p⟩, rfl, hrest⟩

/-- The name of a global variable begins with a dollar sign. -/
theorem accepts_globalName {name : String} (h : name.toList.head? = some '$') (us : List Token) :
    Accepts globalName [.atom name] name us := by
  refine (accepts_word _ name us).bind_nil ?_
  rw [if_pos h]
  exact accepts_pure name us

/-- Items up to a closing parenthesis, when none of them starts with one. -/
theorem accepts_untilClose {item : Reader α} {P : α → List Token → Prop}
    (hitem : ∀ a ts, P a ts → ∀ us, Accepts item ts a us)
    (hstart : ∀ a ts, P a ts → ∃ t us, ts = t :: us ∧ t ≠ .rparen) {as : List α}
    (h : Row P as ts) (us : List Token) : ∀ (n : Nat) (acc : List α), as.length < n →
      Accepts (untilClose item n acc) ts (acc.reverse ++ as) (.rparen :: us) := by
  induction h with
  | nil =>
    intro n acc hn
    obtain ⟨n, rfl⟩ := Nat.exists_eq_succ_of_ne_zero (Nat.ne_of_gt hn)
    rw [List.append_nil]
    exact (accepts_atClose us).bind_nil (accepts_pure _ _)
  | @cons a as ts vs ha has ih =>
    intro n acc hn
    obtain ⟨n, rfl⟩ := Nat.exists_eq_succ_of_ne_zero (Nat.ne_zero_of_lt hn)
    obtain ⟨t, ts', rfl, ht⟩ := hstart a ts ha
    have hrest := ih n (a :: acc) (Nat.lt_of_succ_lt_succ hn)
    rw [List.reverse_cons, List.append_assoc] at hrest
    exact (accepts_atClose_of_ne ht _).look ((hitem a _ ha _).bind hrest)

/-- Parameters are taken up to their own parenthesis. -/
theorem accepts_params {xs : List String} (n : Nat) (h : Params xs ts) (hn : ts.length ≤ n)
    (us : List Token) : Accepts (params n) ts xs us := by
  obtain ⟨names⟩ := h
  rename_i ts
  have hlength : xs.length < n := by
    have := names.length_le fun x us h => by rw [h]; simp
    simp at hn
    omega
  have hword : ∀ x us, Name x us → ∀ vs, Accepts (word "parameter name") us x vs :=
    fun x us h vs => by rw [h]; exact accepts_word _ x vs
  have hstart : ∀ x us, Name x us → ∃ t vs, us = t :: vs ∧ t ≠ .rparen :=
    fun x us h => ⟨.atom x, [], h, Token.noConfusion⟩
  have hnames := accepts_untilClose hword hstart names us n [] hlength
  refine (accepts_openForm _).bind ((accepts_word _ "args" _).bind ?_)
  exact hnames.bind ((accepts_closeForm "args" us).bind_nil (accepts_pure xs us))

section

variable {expr : Reader Expr} {form : Expr → List Token → Prop}

/-- The reader accepts every form, and every form opens with a parenthesis. -/
structure AcceptsForms (expr : Reader Expr) (form : Expr → List Token → Prop) : Prop where
  accepts : ∀ e ts, form e ts → ∀ us, Accepts expr ts e us
  opens : ∀ e ts, form e ts → ∃ us, ts = .lparen :: us

variable (h : AcceptsForms expr form)
include h

/-- A row of forms is taken up to the closing parenthesis. -/
theorem AcceptsForms.sequence {es : List Expr} (n : Nat) (hes : Row form es ts) (hn : ts.length < n)
    (us : List Token) : Accepts (sequence expr n) ts es (.rparen :: us) := by
  have hlength : es.length < n := by
    refine Nat.lt_of_le_of_lt (hes.length_le fun e us he => ?_) hn
    obtain ⟨vs, rfl⟩ := h.opens e us he
    simp
  refine accepts_untilClose (fun e us he vs => ?_) (fun e us he => ?_) hes us n [] hlength
  · obtain ⟨ws, rfl⟩ := h.opens e us he
    refine (accepts_atEnd_of_ne Token.noConfusion _).look ?_
    exact h.accepts e _ he vs
  · obtain ⟨vs, rfl⟩ := h.opens e us he
    exact ⟨_, _, rfl, Token.noConfusion⟩

/-- No form is taken for a bare `nil`, because forms begin with a parenthesis. -/
theorem AcceptsForms.optional {o : Option Expr} (ho : OrNil form o ts) (us : List Token) :
    Accepts (optional expr) ts o us := by
  cases ho with
  | absent =>
    intro c hc
    obtain ⟨p, rest, last, rfl, hrest⟩ := Cursor.of_tokens_cons hc
    exact ⟨⟨rest, some p⟩, rfl, hrest⟩
  | @present e ts he =>
    intro c hc
    obtain ⟨vs, rfl⟩ := h.opens e ts he
    obtain ⟨p, rest, last, rfl, hrest⟩ := Cursor.of_tokens_cons hc
    rw [optional_of_ne (by simp [Cursor.token?])]
    exact (h.accepts e _ he us).map some _ hc

/-- What may be absent is still no closing parenthesis. -/
theorem AcceptsForms.starts {o : Option Expr} (ho : OrNil form o ts) :
    ∃ t us, ts = t :: us ∧ t ≠ .rparen := by
  cases ho with
  | absent => exact ⟨_, _, rfl, Token.noConfusion⟩
  | present he =>
    obtain ⟨us, rfl⟩ := h.opens _ _ he
    exact ⟨_, _, rfl, Token.noConfusion⟩

/-- What is left out at the end is seen by the closing parenthesis. -/
theorem AcceptsForms.trailing {o : Option Expr} (ho : Trailing form o ts) (us : List Token) :
    Accepts (trailing expr) ts o (.rparen :: us) := by
  cases ho with
  | absent => exact (accepts_atClose us).bind_nil (accepts_pure none _)
  | @present e ts he =>
    obtain ⟨vs, rfl⟩ := h.opens e ts he
    refine (accepts_atClose_of_ne Token.noConfusion _).look ?_
    exact (h.accepts e _ he _).map some

/-- What follows the head of a form, up to its closing parenthesis. -/
theorem AcceptsForms.formTail {e : Expr} {n : Nat} (ht : Tail form e ts) (hn : ts.length < n)
    (us : List Token) : Accepts (formTail expr n e.kind) ts e (.rparen :: us) := by
  cases ht with
  | int k => exact (accepts_take _ _).bind_nil (accepts_pure _ _)
  | str s => exact (accepts_take _ _).bind_nil (accepts_pure _ _)
  | sym s => exact (accepts_word _ s _).bind_nil (accepts_pure _ _)
  | nil => exact accepts_pure _ _
  | bool b => cases b <;> exact accepts_pure _ _
  | self => exact accepts_pure _ _
  | var x => exact (accepts_word _ x _).bind_nil (accepts_pure _ _)
  | assign value =>
    exact (accepts_word _ _ _).bind ((h.accepts _ _ value _).bind_nil (accepts_pure _ _))
  | gvar global => exact (accepts_globalName global _).bind_nil (accepts_pure _ _)
  | gassign global value =>
    exact (accepts_globalName global _).bind ((h.accepts _ _ value _).bind_nil (accepts_pure _ _))
  | call receiver args =>
    have hargs := h.sequence n args (by simp at hn; omega) us
    refine (h.optional receiver _).bind ?_
    exact (accepts_word _ _ _).bind (hargs.bind_nil (accepts_pure _ _))
  | iter call params body =>
    have hparams := accepts_params n params (by simp at hn; omega)
    have hbody := h.sequence n body (by simp at hn; omega) us
    refine (h.accepts _ _ call _).bind ?_
    exact (hparams _).bind (hbody.bind_nil (accepts_pure _ _))
  | yield args => exact (h.sequence n args hn us).bind_nil (accepts_pure _ _)
  | cond test yes no =>
    obtain ⟨t, vs, rfl, ht⟩ := h.starts no
    refine (h.accepts _ _ test _).bind ((h.optional yes _).bind ?_)
    refine (accepts_atClose_of_ne ht _).look ?_
    exact (h.optional no _).bind_nil (accepts_pure _ _)
  | condThen test yes =>
    refine (h.accepts _ _ test _).bind ?_
    refine Accepts.bind_nil (h.optional yes _) ?_
    exact (accepts_atClose us).bind_nil (accepts_pure _ _)
  | loop test body =>
    have hbody := h.sequence n body (by simp at hn; omega) us
    exact (h.accepts _ _ test _).bind (hbody.bind_nil (accepts_pure _ _))
  | conj left right | disj left right =>
    exact (h.accepts _ _ left _).bind ((h.accepts _ _ right _).bind_nil (accepts_pure _ _))
  | neg operand => exact (h.accepts _ _ operand _).bind_nil (accepts_pure _ _)
  | seq items => exact (h.sequence n items hn us).bind_nil (accepts_pure _ _)
  | ret value | next value => exact (h.trailing value us).bind_nil (accepts_pure _ _)
  | brk => exact accepts_pure _ _
  | method params body =>
    have hparams := accepts_params n params (by simp at hn; omega)
    have hbody := h.sequence n body (by simp at hn; omega) us
    refine (accepts_word _ _ _).bind ?_
    exact (hparams _).bind (hbody.bind_nil (accepts_pure _ _))

end

/-- **The reader accepts every form.** -/
theorem accepts_readExpr : ∀ (n : Nat) {e : Expr} {ts : List Token}, Form e ts → ts.length ≤ n →
    ∀ us, Accepts (readExpr n) ts e us := by
  intro n
  induction n with
  | zero =>
    intro e ts h hn us
    obtain ⟨vs, rfl⟩ := h.starts_open
    simp at hn
  | succ n ih =>
    rintro e _ ⟨tail⟩ hn us
    rename_i ts
    simp only [List.length_cons, List.length_append, List.length_nil] at hn
    -- the forms inside are shorter, so that the bound of the inner reader is enough for them
    have hinner : AcceptsForms (readExpr n) fun e us => Form e us ∧ us.length ≤ n :=
      ⟨fun e us he => ih he.1 he.2, fun e us he => he.1.starts_open⟩
    have htail := hinner.formTail (n := n)
      (tail.imp fun f us hus hf => ⟨hf, Nat.le_trans hus (by omega)⟩) (by omega) us
    refine (accepts_openForm _).bind ((accepts_word _ e.kind _).bind ?_)
    exact htail.bind ((accepts_closeForm e.kind us).bind_nil (accepts_pure e us))

/-! ## Programs -/

/-- No word comes next. -/
def Ended (ts : List Token) : Prop := ∀ t ∈ ts.head?, t = .eof

theorem atEnd_eq (c : Cursor) : ∃ b, atEnd c = .ok (b, c) ∧ (b = true → Ended c.tokens) := by
  obtain ⟨rest, last⟩ := c
  cases rest with
  | nil => exact ⟨true, rfl, by simp [Ended, Cursor.tokens]⟩
  | cons x rest =>
    obtain ⟨t, p⟩ := x
    cases t with
    | eof => exact ⟨true, rfl, by simp [Ended, Cursor.tokens]⟩
    | _ => exact ⟨false, rfl, by simp⟩

/-- What is taken up to the end are items in a row, when the bound leaves room for every token. -/
theorem sound_untilEnd {item : Reader α} {P : α → List Token → Prop} (hitem : Sound item P)
    (hP : ∀ a ts, P a ts → 0 < ts.length) :
    ∀ (n : Nat) (acc : List α) (c : Cursor) (as : List α) (c' : Cursor), c.tokens.length ≤ n →
      untilEnd item n acc c = .ok (as, c') →
      Ended c'.tokens ∧ ∃ bs ts, as = acc.reverse ++ bs ∧ Row P bs ts ∧
        c.tokens = ts ++ c'.tokens := by
  intro n
  induction n with
  | zero =>
    intro acc c as c' hn h
    have hnil : c.tokens = [] := List.eq_nil_of_length_eq_zero (Nat.le_zero.mp hn)
    cases h
    exact ⟨by simp [hnil, Ended], [], [], by simp, .nil, rfl⟩
  | succ n ih =>
    intro acc c as c' hn h
    obtain ⟨b, hend, hended⟩ := atEnd_eq c
    have hrun : (if b = true then pure acc.reverse else
        item >>= fun a => untilEnd item n (a :: acc)) c = .ok (as, c') := by
      rw [← h]
      show _ = (atEnd >>= _) c
      rw [bind_eq, hend]
      rfl
    cases b with
    | true =>
      cases hrun
      exact ⟨hended rfl, [], [], by simp, .nil, rfl⟩
    | false =>
      obtain ⟨a, c₁, htaken, hrest⟩ := of_bind_eq_ok hrun
      obtain ⟨ts, hts, ha⟩ := hitem c a c₁ htaken
      have hlength : c₁.tokens.length ≤ n := by
        have := hP a ts ha
        rw [hts, List.length_append] at hn
        omega
      obtain ⟨hended, bs, us, rfl, hbs, hus⟩ := ih (a :: acc) c₁ as c' hlength hrest
      exact ⟨hended, a :: bs, ts ++ us, by simp, .cons ha hbs, by rw [hts, hus, List.append_assoc]⟩

/-- A row of forms is taken up to the end of the text. -/
theorem accepts_untilEnd {item : Reader α} {P : α → List Token → Prop}
    (hitem : ∀ a ts, P a ts → ∀ us, Accepts item ts a us)
    (hstart : ∀ a ts, P a ts → ∃ t us, ts = t :: us ∧ t ≠ .eof) {as : List α}
    (h : Row P as ts) (us : List Token) : ∀ (n : Nat) (acc : List α), as.length ≤ n →
      Accepts (untilEnd item n acc) ts (acc.reverse ++ as) (.eof :: us) := by
  induction h with
  | nil =>
    intro n acc _
    rw [List.append_nil]
    cases n with
    | zero => exact accepts_pure _ _
    | succ n => exact (accepts_atEnd us).bind_nil (accepts_pure _ _)
  | @cons a as ts vs ha has ih =>
    intro n acc hn
    obtain ⟨n, rfl⟩ := Nat.exists_eq_succ_of_ne_zero (Nat.ne_zero_of_lt hn)
    obtain ⟨t, ts', rfl, ht⟩ := hstart a ts ha
    have hrest := ih n (a :: acc) (Nat.le_of_succ_le_succ hn)
    rw [List.reverse_cons, List.append_assoc] at hrest
    exact (accepts_atEnd_of_ne ht _).look ((hitem a _ ha _).bind hrest)

/-- Forms in a row are accepted as a program. -/
theorem accepts_program {forms : List Expr} (h : Row Form forms ts) {n : Nat} (hn : ts.length ≤ n)
    (us : List Token) : Accepts (untilEnd (readExpr n) n []) ts forms (.eof :: us) := by
  have hbounded : Row (fun e us => Form e us ∧ us.length ≤ n) forms ts :=
    h.imp fun e us hus he => ⟨he, Nat.le_trans hus hn⟩
  have hlength : forms.length ≤ n :=
    Nat.le_trans (h.length_le fun e us he => he.length_pos) hn
  refine accepts_untilEnd (fun e us he => accepts_readExpr n he.1 he.2) (fun e us he => ?_) hbounded
    us n [] hlength
  obtain ⟨vs, rfl⟩ := he.1.starts_open
  exact ⟨_, _, rfl, Token.noConfusion⟩

end Reader

/-! ## The end of the text -/

namespace Token

theorem ne_eof_of_scanNumber {p p' : Position} {text rest : List Char} {t : Token}
    (h : scanNumber p text = .ok (t, p', rest)) : t ≠ .eof := by
  unfold scanNumber at h
  dsimp only at h
  split at h
  · cases h
    exact Token.noConfusion
  · cases h

/-- No word of the text is its end. -/
theorem ne_eof_of_scanWord {p p' : Position} {c : Char} {rest rest' : List Char} {t : Token}
    (h : scanWord p c rest = .ok (t, p', rest')) : t ≠ .eof := by
  unfold scanWord at h
  split at h
  · cases h
    exact Token.noConfusion
  split at h
  · cases h
    exact Token.noConfusion
  split at h
  · cases hs : scanString p (p.next c) rest [] with
    | error e =>
      rw [hs] at h
      cases h
    | ok r =>
      rw [hs] at h
      cases h
      exact Token.noConfusion
  split at h
  · cases h
    exact Token.noConfusion
  split at h
  · cases h
    exact Token.noConfusion
  split at h
  · exact ne_eof_of_scanNumber h
  split at h
  · cases h
    exact Token.noConfusion
  · cases h

/-- The end is scanned once, behind all words. -/
theorem scanFrom_ends : ∀ (n : Nat) (p : Position) (text : List Char) (acc lexemes : List Lexeme),
    scanFrom n p text acc = .ok lexemes →
    ∃ words q, lexemes = acc.reverse ++ words ++ [⟨.eof, q⟩] ∧ ∀ x ∈ words, x.token ≠ .eof := by
  intro n
  induction n with
  | zero =>
    intro p text acc lexemes h
    cases h
    exact ⟨[], p, by simp, by simp⟩
  | succ n ih =>
    intro p text acc lexemes h
    unfold scanFrom at h
    dsimp only at h
    split at h
    · cases h
      exact ⟨[], p.advance (text.takeWhile isBlank), by simp, by simp⟩
    · split at h
      · rename_i c rest _ _ t q rest' hword
        obtain ⟨words, q', rfl, hwords⟩ := ih _ _ _ _ h
        refine ⟨⟨t, p.advance (text.takeWhile isBlank)⟩ :: words, q', by simp, ?_⟩
        exact List.forall_mem_cons.mpr ⟨ne_eof_of_scanWord hword, hwords⟩
      · cases h

/-- **The last lexeme is the end of the text, and no other one is.** -/
theorem scan_ends {source : String} {lexemes : List Lexeme} (h : scan source = .ok lexemes) :
    ∃ words p, lexemes = words ++ [⟨.eof, p⟩] ∧ ∀ x ∈ words, x.token ≠ .eof := by
  obtain ⟨words, p, rfl, hwords⟩ := scanFrom_ends _ _ _ _ _ h
  exact ⟨words, p, by simp, hwords⟩

end Token

/-! ## The grammar and the reader -/

/-- Comments and line ends are left out before the reader starts. -/
theorem ofLexemes_eq_ok {lexemes : List Lexeme} {forms : List Expr} {n : Nat}
    (hn : (lexemes.filter (·.token.isSignificant)).length = n) :
    Expr.ofLexemes lexemes = .ok forms ↔ ∃ c', Reader.untilEnd (Reader.readExpr n) n []
      ⟨lexemes.filter (·.token.isSignificant), none⟩ = .ok (forms, c') := by
  subst hn
  show (·.1) <$> Reader.untilEnd _ _ [] _ = _ ↔ _
  generalize Reader.untilEnd _ _ [] _ = result
  constructor
  · intro h
    cases result with
    | error e => cases h
    | ok r =>
      cases h
      exact ⟨r.2, rfl⟩
  · rintro ⟨c', rfl⟩
    rfl

/-- Reading words that the text ends behind. -/
theorem ofLexemes_eq_ok_iff {lexemes : List Lexeme} {words : List Token} {forms : List Expr}
    (hwords : (lexemes.map (·.token)).filter Token.isSignificant = words ++ [.eof])
    (heof : .eof ∉ words) : Expr.ofLexemes lexemes = .ok forms ↔ Row Form forms words := by
  have htokens : (lexemes.filter (·.token.isSignificant)).map (·.token) = words ++ [.eof] := by
    rw [← hwords, List.filter_map]
    rfl
  have hlength : (lexemes.filter (·.token.isSignificant)).length = words.length + 1 := by
    simpa using congrArg List.length htokens
  rw [ofLexemes_eq_ok hlength]
  constructor
  · rintro ⟨c', h⟩
    obtain ⟨hended, forms, ts, rfl, hforms, hts⟩ := Reader.sound_untilEnd
      (Reader.sound_readExpr _) (fun e us he => he.length_pos) _ [] _ _ _
      (by simp [Cursor.tokens, hlength]) h
    have hrow : .eof ∉ ts := hforms.eof_notMem fun _ _ => Form.eof_notMem
    -- the text ends behind the words, and also behind the forms
    suffices words = ts by rwa [this]
    have hsplit : words ++ [.eof] = ts ++ c'.tokens := htokens.symm.trans hts
    cases hrest : c'.tokens with
    | nil =>
      rw [hrest, List.append_nil] at hsplit
      exact absurd (hsplit ▸ List.mem_append_right words (List.mem_singleton.mpr rfl)) hrow
    | cons t us =>
      rw [hrest] at hended hsplit
      obtain rfl : t = .eof := hended t rfl
      exact ((List.append_cons_inj_of_notMem heof List.not_mem_nil).mp hsplit).1
  · intro h
    obtain ⟨c', hc', -⟩ := Reader.accepts_program h (Nat.le_succ _) [] ⟨_, none⟩ htokens
    exact ⟨c', hc'⟩

/-- No tokens write two lists of forms. -/
theorem Grammar.Row.forms_unique {forms forms' : List Expr} {ts : List Token}
    (h : Row Form forms ts) (h' : Row Form forms' ts) : forms = forms' := by
  let c : Cursor := ⟨(ts ++ [Token.eof]).map (⟨·, .start⟩), none⟩
  have hc : c.tokens = ts ++ [.eof] := by simp [c, Cursor.tokens, Function.comp_def]
  obtain ⟨d, hd, -⟩ := Reader.accepts_program h (Nat.le_refl _) [] c hc
  obtain ⟨d', hd', -⟩ := Reader.accepts_program h' (Nat.le_refl _) [] c hc
  rw [hd] at hd'
  cases hd'
  rfl

/-- **The reader accepts exactly its grammar**, and what is written determines the forms. -/
theorem reads_exactly_grammar {source : String} {lexemes : List Lexeme}
    (hscan : Token.scan source = .ok lexemes) :
    (∀ forms, Expr.ofLexemes lexemes = .ok forms ↔ ∃ ts, Row Form forms ts ∧
      (lexemes.map (·.token)).filter Token.isSignificant = ts ++ [.eof]) ∧
    ∀ forms forms' ts, Row Form forms ts → Row Form forms' ts → forms = forms' := by
  refine ⟨fun forms => ?_, fun forms forms' ts => Row.forms_unique⟩
  obtain ⟨xs, p, rfl, hxs⟩ := Token.scan_ends hscan
  have hwords : ((xs ++ [⟨.eof, p⟩] : List Lexeme).map (·.token)).filter Token.isSignificant =
      (xs.map (·.token)).filter Token.isSignificant ++ [.eof] := by
    rw [List.map_append, List.filter_append]
    rfl
  have heof : .eof ∉ (xs.map (·.token)).filter Token.isSignificant := by
    intro hmem
    obtain ⟨x, hx, heq⟩ := List.mem_map.mp (List.mem_filter.mp hmem).1
    exact hxs x hx heq
  rw [ofLexemes_eq_ok_iff hwords heof, hwords]
  constructor
  · intro h
    exact ⟨_, h, rfl⟩
  · rintro ⟨ts, h, heq⟩
    rwa [List.append_cancel_right heq]

/-- A bare `nil` is an absent receiver, the name of a method, the name of a symbol and an absent
branch. The other branch is left out, and so is the body of the block. -/
def manyNils : String :=
  "; three forms\n(if (call nil nil (sym nil)) nil)\n" ++
    "(iter (call (nil) go) (args x y)) ; no body\n(gasgn $g (nil))"

def manyNilsForms : List Expr :=
  [.cond (.call none "nil" [.sym "nil"]) none none, .iter (some .nil) "go" [] ["x", "y"] [],
    .gassign "$g" .nil]

theorem manyNils_reads_exactly_grammar :
    ∃ lexemes, Token.scan manyNils = .ok lexemes ∧ Expr.ofLexemes lexemes = .ok manyNilsForms := by
  have hcond : Form (.cond (.call none "nil" [.sym "nil"]) none none) _ :=
    .intro (.condThen (.intro (.call .absent (.cons (.intro (.sym _)) .nil))) .absent)
  have hiter : Form (.iter (some .nil) "go" [] ["x", "y"] []) _ :=
    .intro (.iter (.intro (.call (.present (.intro .nil)) .nil))
      (.intro (.cons rfl (.cons rfl .nil))) .nil)
  have hassign : Form (.gassign "$g" .nil) _ := .intro (.gassign rfl (.intro .nil))
  obtain ⟨ts, hrow, hwords⟩ : ∃ ts, Row Form manyNilsForms ts ∧ (Token.scan manyNils).map
      (fun lexemes => (lexemes.map (·.token)).filter Token.isSignificant) = .ok (ts ++ [.eof]) :=
    ⟨_, .cons hcond (.cons hiter (.cons hassign .nil)), by decide +kernel⟩
  cases hscan : Token.scan manyNils with
  | error e =>
    rw [hscan] at hwords
    cases hwords
  | ok lexemes =>
    rw [hscan] at hwords
    exact ⟨lexemes, rfl, ((reads_exactly_grammar hscan).1 _).mpr ⟨ts, hrow, Except.ok.inj hwords⟩⟩

end StackCode
