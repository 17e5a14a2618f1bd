import StackCode.Expr.Read

/-!
# The grammar of forms

What the tokens of an expression are, said without the reader. A form stands in parentheses behind
its head; `Tail` says what follows the head of each kind of form, over any way to write the forms
inside it, and `Form` closes the circle.

Only one thing can be written in two ways: a branch `else` that is absent is the word `nil`, or is
left out. A bare `nil` stands for what is absent, and never for the value nil, which is the form
`(nil)`.
-/

namespace StackCode.Grammar

/-! ## Rules -/

/-- Items in a row. -/
inductive Row {α : Type} (item : α → List Token → Prop) : List α → List Token → Prop
  | nil : Row item [] []
  | cons {a : α} {as : List α} {ts us : List Token} (head : item a ts) (tail : Row item as us) :
      Row item (a :: as) (ts ++ us)

/-- A name, as a bare word. -/
def Name (name : String) (ts : List Token) : Prop := ts = [.atom name]

/-- `(args NAME...)`. -/
inductive Params : List String → List Token → Prop
  | intro {xs : List String} {ts : List Token} (names : Row Name xs ts) :
      Params xs (.lparen :: .atom "args" :: (ts ++ [.rparen]))

section

variable (form : Expr → List Token → Prop)

/-- A form, or the bare word `nil` for none. -/
inductive OrNil : Option Expr → List Token → Prop
  | absent : OrNil none [.atom "nil"]
  | present {e : Expr} {ts : List Token} (here : form e ts) : OrNil (some e) ts

/-- A form, or nothing at all. -/
inductive Trailing : Option Expr → List Token → Prop
  | absent : Trailing none []
  | present {e : Expr} {ts : List Token} (here : form e ts) : Trailing (some e) ts

/-- What stands between the head of a form and its closing parenthesis. -/
inductive Tail : Expr → List Token → Prop
  | int (n : Int64) : Tail (.int n) [.integer n]
  | str (s : String) : Tail (.str s) [.string s]
  | sym (s : String) : Tail (.sym s) [.atom s]
  | nil : Tail .nil []
  | bool (b : Bool) : Tail (.bool b) []
  | self : Tail .self []
  | var (x : String) : Tail (.var x) [.atom x]
  | assign {x : String} {e : Expr} {ts : List Token} (value : form e ts) :
      Tail (.assign x e) (.atom x :: ts)
  | gvar {x : String} (global : x.toList.head? = some '$') : Tail (.gvar x) [.atom x]
  | gassign {x : String} {e : Expr} {ts : List Token} (global : x.toList.head? = some '$')
      (value : form e ts) : Tail (.gassign x e) (.atom x :: ts)
  | call {r : Option Expr} {x : String} {es : List Expr} {ts us : List Token}
      (receiver : OrNil form r ts) (args : Row form es us) :
      Tail (.call r x es) (ts ++ .atom x :: us)
  /-- The call has no block of its own. -/
  | iter {r : Option Expr} {x : String} {es fs : List Expr} {xs : List String}
      {ts us vs : List Token} (call : form (.call r x es) ts) (params : Params xs us)
      (body : Row form fs vs) : Tail (.iter r x es xs fs) (ts ++ (us ++ vs))
  | yield {es : List Expr} {ts : List Token} (args : Row form es ts) : Tail (.yield es) ts
  | cond {e : Expr} {o p : Option Expr} {ts us vs : List Token} (test : form e ts)
      (yes : OrNil form o us) (no : OrNil form p vs) : Tail (.cond e o p) (ts ++ (us ++ vs))
  /-- The branch `else` is left out. -/
  | condThen {e : Expr} {o : Option Expr} {ts us : List Token} (test : form e ts)
      (yes : OrNil form o us) : Tail (.cond e o none) (ts ++ us)
  | loop {e : Expr} {es : List Expr} {ts us : List Token} (test : form e ts)
      (body : Row form es us) : Tail (.loop e es) (ts ++ us)
  | conj {e f : Expr} {ts us : List Token} (left : form e ts) (right : form f us) :
      Tail (.conj e f) (ts ++ us)
  | disj {e f : Expr} {ts us : List Token} (left : form e ts) (right : form f us) :
      Tail (.disj e f) (ts ++ us)
  | neg {e : Expr} {ts : List Token} (operand : form e ts) : Tail (.neg e) ts
  | seq {es : List Expr} {ts : List Token} (items : Row form es ts) : Tail (.seq es) ts
  | ret {o : Option Expr} {ts : List Token} (value : Trailing form o ts) : Tail (.ret o) ts
  | brk : Tail .brk []
  | next {o : Option Expr} {ts : List Token} (value : Trailing form o ts) : Tail (.next o) ts
  | method {x : String} {xs : List String} {es : List Expr} {ts us : List Token}
      (params : Params xs ts) (body : Row form es us) :
      Tail (.method x xs es) (.atom x :: (ts ++ us))

end

/-- A form: its head and what belongs to it, in parentheses. -/
inductive Form : Expr → List Token → Prop
  | intro {e : Expr} {ts : List Token} (tail : Tail Form e ts) :
      Form e (.lparen :: .atom e.kind :: (ts ++ [.rparen]))

/-! ## Inner forms -/

variable {α : Type} {form form' : Expr → List Token → Prop} {e : Expr} {ts : List Token}

section

variable {item item' : α → List Token → Prop}

/-- A row may be written in another way if each item of its length may. -/
theorem Row.imp {as : List α} (h : Row item as ts)
    (himp : ∀ a us, us.length ≤ ts.length → item a us → item' a us) : Row item' as ts := by
  induction h with
  | nil => exact .nil
  | cons head tail ih =>
    rw [List.length_append] at himp
    refine .cons (himp _ _ (by omega) head) (ih fun a us hus => himp a us (by omega))

end

theorem OrNil.imp {o : Option Expr} (h : OrNil form o ts)
    (himp : ∀ e us, us.length ≤ ts.length → form e us → form' e us) : OrNil form' o ts := by
  cases h with
  | absent => exact .absent
  | present here => exact .present (himp _ _ (Nat.le_refl _) here)

theorem Trailing.imp {o : Option Expr} (h : Trailing form o ts)
    (himp : ∀ e us, us.length ≤ ts.length → form e us → form' e us) : Trailing form' o ts := by
  cases h with
  | absent => exact .absent
  | present here => exact .present (himp _ _ (Nat.le_refl _) here)

/-- What is said of the forms inside may be replaced, in forms no longer than the whole. -/
theorem Tail.imp (h : Tail form e ts)
    (himp : ∀ e us, us.length ≤ ts.length → form e us → form' e us) : Tail form' e ts := by
  have part {us : List Token} (hus : us.length ≤ ts.length) :
      ∀ e vs, vs.length ≤ us.length → form e vs → form' e vs :=
    fun e vs hvs => himp e vs (by omega)
  cases h with
  | int n => exact .int n
  | str s => exact .str s
  | sym s => exact .sym s
  | nil => exact .nil
  | bool b => exact .bool b
  | self => exact .self
  | var x => exact .var x
  | assign value => exact .assign (himp _ _ (by simp) value)
  | gvar global => exact .gvar global
  | gassign global value => exact .gassign global (himp _ _ (by simp) value)
  | call receiver args =>
    exact .call (receiver.imp (part (by simp))) (args.imp (part (by simp; omega)))
  | iter call params body =>
    exact .iter (himp _ _ (by simp) call) params (body.imp (part (by simp; omega)))
  | yield args => exact .yield (args.imp himp)
  | cond test yes no =>
    exact .cond (himp _ _ (by simp) test) (yes.imp (part (by simp; omega)))
      (no.imp (part (by simp; omega)))
  | condThen test yes => exact .condThen (himp _ _ (by simp) test) (yes.imp (part (by simp)))
  | loop test body => exact .loop (himp _ _ (by simp) test) (body.imp (part (by simp)))
  | conj left right => exact .conj (himp _ _ (by simp) left) (himp _ _ (by simp) right)
  | disj left right => exact .disj (himp _ _ (by simp) left) (himp _ _ (by simp) right)
  | neg operand => exact .neg (himp _ _ (by simp) operand)
  | seq items => exact .seq (items.imp himp)
  | ret value => exact .ret (value.imp himp)
  | brk => exact .brk
  | next value => exact .next (value.imp himp)
  | method params body => exact .method params (body.imp (part (by simp; omega)))

/-- Induction on forms: what holds of a form may be used for the forms inside it. -/
theorem Form.induct {motive : Expr → List Token → Prop} (h : Form e ts)
    (step : ∀ e ts, Tail (fun e us => Form e us ∧ motive e us) e ts →
      motive e (.lparen :: .atom e.kind :: (ts ++ [.rparen]))) : motive e ts := by
  -- on the number of tokens, since the forms inside are reached through rows and branches
  have bounded : ∀ n e ts, ts.length ≤ n → Form e ts → motive e ts := by
    intro n
    induction n with
    | zero =>
      rintro e ts hts ⟨tail⟩
      simp at hts
    | succ n ih =>
      rintro e ts hts ⟨tail⟩
      refine step e _ (tail.imp fun f us hus hf => ⟨hf, ih f us ?_ hf⟩)
      simp only [List.length_cons, List.length_append] at hts
      omega
  exact bounded _ e ts (Nat.le_refl _) h

/-! ## Words of a form -/

/-- Every form has a token. -/
theorem Form.length_pos (h : Form e ts) : 0 < ts.length := by
  obtain ⟨tail⟩ := h
  simp

theorem Row.length_le {item : α → List Token → Prop} {as : List α} (h : Row item as ts)
    (hitem : ∀ a us, item a us → 0 < us.length) : as.length ≤ ts.length := by
  induction h with
  | nil => exact Nat.le_refl _
  | cons head tail ih =>
    have := hitem _ _ head
    rw [List.length_cons, List.length_append]
    omega

/-- Every form begins with a parenthesis. -/
theorem Form.starts_open (h : Form e ts) : ∃ us, ts = .lparen :: us := by
  obtain ⟨tail⟩ := h
  exact ⟨_, rfl⟩

/-- A row goes on past no end of text. -/
theorem Row.eof_notMem {item : α → List Token → Prop} {as : List α} (h : Row item as ts)
    (hitem : ∀ a us, item a us → .eof ∉ us) : .eof ∉ ts := by
  induction h with
  | nil => simp
  | cons head tail ih => simp [hitem _ _ head, ih]

theorem Name.eof_notMem {x : String} (h : Name x ts) : .eof ∉ ts := by
  rw [h]
  simp

theorem Params.eof_notMem {xs : List String} (h : Params xs ts) : .eof ∉ ts := by
  obtain ⟨names⟩ := h
  simp [names.eof_notMem fun _ _ => Name.eof_notMem]

theorem OrNil.eof_notMem {o : Option Expr} (h : OrNil form o ts)
    (hform : ∀ e us, form e us → .eof ∉ us) : .eof ∉ ts := by
  cases h with
  | absent => simp
  | present here => exact hform _ _ here

theorem Trailing.eof_notMem {o : Option Expr} (h : Trailing form o ts)
    (hform : ∀ e us, form e us → .eof ∉ us) : .eof ∉ ts := by
  cases h with
  | absent => simp
  | present here => exact hform _ _ here

/-- The end of the text is no part of a form, if it is none of the inner forms. -/
theorem Tail.eof_notMem (h : Tail form e ts) (hform : ∀ e us, form e us → .eof ∉ us) :
    .eof ∉ ts := by
  cases h with
  | int | str | sym | nil | bool | self | var | gvar | brk => simp
  | assign value | gassign _ value => simp [hform _ _ value]
  | neg operand => exact hform _ _ operand
  | conj left right | disj left right => simp [hform _ _ left, hform _ _ right]
  | call receiver args => simp [receiver.eof_notMem hform, args.eof_notMem hform]
  | iter call params body =>
    simp [hform _ _ call, params.eof_notMem, body.eof_notMem hform]
  | yield items | seq items => exact items.eof_notMem hform
  | cond test yes no => simp [hform _ _ test, yes.eof_notMem hform, no.eof_notMem hform]
  | condThen test yes => simp [hform _ _ test, yes.eof_notMem hform]
  | loop test body => simp [hform _ _ test, body.eof_notMem hform]
  | ret value | next value => exact value.eof_notMem hform
  | method params body => simp [params.eof_notMem, body.eof_notMem hform]

/-- **The end of the text is no part of a form.** -/
theorem Form.eof_notMem (h : Form e ts) : .eof ∉ ts := by
  refine h.induct (motive := fun _ ts => .eof ∉ ts) fun e ts tail => ?_
  simp [tail.eof_notMem fun _ _ => And.right]

end StackCode.Grammar
