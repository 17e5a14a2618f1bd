import Mathlib.Logic.Relation
import StackCode.Expr.Lower

/-!
# Misplaced forms

Which forms have no meaning where they stand is said on expressions alone: an expression occurs in
another one in a setting, which is the kind of body around it and whether a loop of that body is.

The main statement is `Expr.gives_lower_iff`: lowering succeeds exactly on the expressions in which
no misplaced form occurs.
-/

namespace StackCode

open Relation (ReflTransGen)

/-- What surrounds an expression: the kind of its body, and whether a loop of that body is around
it. -/
structure Setting where
  body : BodyKind := .top
  inLoop : Bool := false
deriving DecidableEq, Repr

namespace Expr

/-! ## Occurrences -/

/-- The expressions that an expression is made of, each with its setting. A loop surrounds its test
as well as its body. -/
def parts (c : Setting) : Expr → List (Setting × Expr)
  | assign _ value | gassign _ value => [(c, value)]
  | call receiver _ args => (receiver.toList ++ args).map (c, ·)
  | iter receiver _ args _ body =>
    (receiver.toList ++ args).map (c, ·) ++ body.map ({ body := .block }, ·)
  | yield args => args.map (c, ·)
  | cond test yes no => (test :: (yes.toList ++ no.toList)).map (c, ·)
  | loop test body => (test :: body).map ({ c with inLoop := true }, ·)
  | conj left right | disj left right => [(c, left), (c, right)]
  | neg operand => [(c, operand)]
  | seq items => items.map (c, ·)
  | ret value | next value => value.toList.map (c, ·)
  | method _ _ body => body.map ({ body := .method }, ·)
  | _ => []

/-- One expression is a part of another. -/
def Part (outer inner : Setting × Expr) : Prop := inner ∈ outer.2.parts outer.1

section

variable {Q : Setting → Expr → Prop} {c : Setting} {receiver yes no : Option Expr} {name : String}
  {args body : List Expr} {params : List String} {test : Expr}

/-! What holds of all parts, for the forms that have several kinds of them. -/

theorem forall_parts_call : (∀ x ∈ (call receiver name args).parts c, Q x.1 x.2) ↔
    (∀ x ∈ receiver, Q c x) ∧ ∀ x ∈ args, Q c x := by
  simp only [parts, List.forall_mem_map, List.forall_mem_append, Option.mem_toList, Option.mem_def]

theorem forall_parts_iter : (∀ x ∈ (iter receiver name args params body).parts c, Q x.1 x.2) ↔
    (∀ x ∈ receiver, Q c x) ∧ (∀ x ∈ args, Q c x) ∧ ∀ x ∈ body, Q { body := .block } x := by
  simp only [parts, List.forall_mem_append, List.forall_mem_map, Option.mem_toList, Option.mem_def,
    and_assoc]

theorem forall_parts_cond : (∀ x ∈ (cond test yes no).parts c, Q x.1 x.2) ↔
    Q c test ∧ (∀ x ∈ yes, Q c x) ∧ ∀ x ∈ no, Q c x := by
  simp only [parts, List.forall_mem_map, List.forall_mem_cons, List.forall_mem_append,
    Option.mem_toList, Option.mem_def]

theorem forall_parts_loop : (∀ x ∈ (loop test body).parts c, Q x.1 x.2) ↔
    Q { c with inLoop := true } test ∧ ∀ x ∈ body, Q { c with inLoop := true } x := by
  simp only [parts, List.forall_mem_map, List.forall_mem_cons]

end

/-- `P` holds of the expression in its setting and of everything that occurs in it. -/
def Everywhere (P : Setting → Expr → Prop) (c : Setting) (e : Expr) : Prop :=
  ∀ x, ReflTransGen Part (c, e) x → P x.1 x.2

/-- What holds everywhere holds here and everywhere in the parts. -/
theorem everywhere_iff {P : Setting → Expr → Prop} {c : Setting} {e : Expr} :
    Everywhere P c e ↔ P c e ∧ ∀ x ∈ e.parts c, Everywhere P x.1 x.2 := by
  constructor
  · intro h
    exact ⟨h _ .refl, fun x hx y hy => h y (.head hx hy)⟩
  · rintro ⟨h0, h⟩ y hy
    rcases ReflTransGen.cases_head hy with rfl | ⟨x, hx, hxy⟩
    · exact h0
    · exact h x hx y hxy

/-! ## Placement of forms -/

/-- A return inside a block, a break outside of loops, a next outside of loops and blocks. -/
def MisplacedIn (c : Setting) : Expr → Prop
  | ret _ => c.body = .block
  | brk => c.inLoop = false
  | next _ => c.inLoop = false ∧ c.body ≠ .block
  | _ => False

/-- No form that occurs in the expression is misplaced. -/
def WellPlaced (c : Setting) (e : Expr) : Prop := Everywhere (fun c e => ¬ e.MisplacedIn c) c e

/-- A misplaced form occurs in a program. -/
def HoldsMisplaced (e : Expr) : Prop :=
  ∃ x, ReflTransGen Part ({}, e) x ∧ x.2.MisplacedIn x.1

/-- A program without misplaced forms has every form where it may stand. -/
theorem not_holdsMisplaced_iff {e : Expr} : ¬ e.HoldsMisplaced ↔ WellPlaced {} e := by
  unfold HoldsMisplaced WellPlaced Everywhere
  constructor
  · intro h x hx hm
    exact h ⟨x, hx, hm⟩
  · rintro h ⟨x, hx, hm⟩
    exact h x hx hm

/-- An expression is well placed when its form is and its parts are. -/
theorem wellPlaced_iff {c : Setting} {e : Expr} :
    WellPlaced c e ↔ ¬ e.MisplacedIn c ∧ ∀ x ∈ e.parts c, WellPlaced x.1 x.2 :=
  everywhere_iff

end Expr

/-! ## Where lowering succeeds -/

/-- The computation gives a result. -/
def Gives {ε α : Type} (x : Except ε α) : Prop := ∃ a, x = .ok a

variable {ε α β : Type}

@[simp] theorem gives_ok (a : α) : Gives (.ok a : Except ε α) := ⟨a, rfl⟩

@[simp] theorem gives_pure (a : α) : Gives (pure a : Except ε α) := ⟨a, rfl⟩

@[simp] theorem not_gives_error (e : ε) : ¬ Gives (.error e : Except ε α) := by
  rintro ⟨a, h⟩
  cases h

/-- When the second step succeeds or not whatever the first one gives. -/
theorem gives_bind_iff {x : Except ε α} {f : α → Except ε β} {P : Prop}
    (h : ∀ a, Gives (f a) ↔ P) : Gives (x >>= f) ↔ Gives x ∧ P := by
  cases x with
  | error e =>
    show Gives (.error e : Except ε β) ↔ _
    simp
  | ok a =>
    show Gives (f a) ↔ _
    rw [h a]
    simp

namespace Place

/-- The setting of a place. -/
def setting (here : Place) : Setting := ⟨here.body, here.inLoop⟩

end Place

namespace Expr

theorem wellPlaced_self (c : Setting) : WellPlaced c .self := by
  rw [wellPlaced_iff]
  simp [parts, MisplacedIn]

mutual

/-- **Lowering succeeds exactly on well placed expressions**, whatever the scopes. -/
theorem gives_lower_iff (here : Place) (t : ScopeTree) (e : Expr) :
    Gives (lower here t e) ↔ WellPlaced here.setting e := by
  rw [wellPlaced_iff]
  cases e with
  | int n => simp [lower, parts, MisplacedIn]
  | str s => simp [lower, parts, MisplacedIn]
  | sym s => simp [lower, parts, MisplacedIn]
  | nil => simp [lower, parts, MisplacedIn]
  | bool b => simp [lower, parts, MisplacedIn]
  | self => simp [lower, parts, MisplacedIn]
  | gvar name => simp [lower, parts, MisplacedIn]
  | var name =>
    unfold lower
    split <;> simp [parts, MisplacedIn]
  | assign name value =>
    unfold lower
    rw [gives_bind_iff (P := True) (fun ⟨_, _⟩ => by simp), gives_lower_iff]
    simp [parts, MisplacedIn]
  | gassign name value =>
    unfold lower
    rw [gives_bind_iff (P := True) (fun ⟨_, _⟩ => by simp), gives_lower_iff]
    simp [parts, MisplacedIn]
  | call receiver name args =>
    unfold lower
    split
    · -- a name with a meaning of its own: no part is lowered, and the receiver can only be `self`
      rename_i hr _
      have hself : ∀ x ∈ receiver, x = .self := by
        intro x hx
        cases hx
        unfold explicitReceiver? at hr
        split at hr
        · rename_i heq
          exact Option.some.inj heq
        · cases hr
      simp only [gives_ok, true_iff, parts, MisplacedIn, not_false_eq_true, true_and,
        List.append_nil, List.mem_map, Option.mem_toList]
      rintro x ⟨e, he, rfl⟩
      rw [hself e he]
      exact wellPlaced_self _
    · rename_i args _ _ _ _
      rw [gives_bind_iff (P := ∀ x ∈ args, WellPlaced here.setting x) (fun ⟨_, _, _⟩ => by
        rw [gives_bind_iff (P := True) (fun ⟨_, _⟩ => by simp), gives_lowerAll_iff, and_true]),
        gives_lowerReceiver_iff, forall_parts_call (Q := WellPlaced)]
      simp [MisplacedIn]
  | iter receiver name args params body =>
    unfold lower
    rw [gives_bind_iff (P := (∀ x ∈ args, WellPlaced here.setting x) ∧
        ∀ x ∈ body, WellPlaced { body := .block } x) (fun ⟨_, _, _⟩ => by
      rw [gives_bind_iff (P := ∀ x ∈ body, WellPlaced { body := .block } x) (fun ⟨_, _⟩ => by
        rw [gives_bind_iff (P := True) (fun ⟨_, _⟩ => by simp), gives_lowerBody_iff, and_true]
        rfl), gives_lowerAll_iff]), gives_lowerReceiver_iff, forall_parts_iter (Q := WellPlaced)]
    simp [MisplacedIn]
  | yield args =>
    unfold lower
    rw [gives_bind_iff (P := True) (fun ⟨_, _⟩ => by simp), gives_lowerAll_iff]
    simp [parts, MisplacedIn]
  | cond test yes no =>
    unfold lower
    rw [gives_bind_iff (P := (∀ x ∈ yes, WellPlaced here.setting x) ∧
        ∀ x ∈ no, WellPlaced here.setting x) (fun ⟨_, _⟩ => by
      rw [gives_bind_iff (P := ∀ x ∈ no, WellPlaced here.setting x) (fun ⟨_, _⟩ => by
        rw [gives_bind_iff (P := True) (fun ⟨_, _⟩ => by simp), gives_lowerOption_iff, and_true]
        rfl), gives_lowerOption_iff]
      rfl), gives_lower_iff, forall_parts_cond (Q := WellPlaced)]
    simp [MisplacedIn]
  | loop test body =>
    unfold lower
    rw [gives_bind_iff (P := ∀ x ∈ body, WellPlaced { here.setting with inLoop := true } x)
      (fun ⟨_, _⟩ => by
        rw [gives_bind_iff (P := True) (fun ⟨_, _⟩ => by simp), gives_lowerStatements_iff, and_true]
        rfl), gives_lower_iff, forall_parts_loop (Q := WellPlaced)]
    simp [MisplacedIn, Place.setting]
  | conj left right =>
    unfold lower
    rw [gives_bind_iff (P := WellPlaced here.setting right) (fun ⟨_, _⟩ => by
      rw [gives_bind_iff (P := True) (fun ⟨_, _⟩ => by simp), gives_lower_iff, and_true]
      rfl), gives_lower_iff]
    simp [parts, MisplacedIn]
  | disj left right =>
    unfold lower
    rw [gives_bind_iff (P := WellPlaced here.setting right) (fun ⟨_, _⟩ => by
      rw [gives_bind_iff (P := True) (fun ⟨_, _⟩ => by simp), gives_lower_iff, and_true]
      rfl), gives_lower_iff]
    simp [parts, MisplacedIn]
  | neg operand =>
    unfold lower
    rw [gives_bind_iff (P := True) (fun ⟨_, _⟩ => by simp), gives_lower_iff]
    simp [parts, MisplacedIn]
  | seq items =>
    unfold lower
    rw [gives_lowerBody_iff]
    simp [parts, MisplacedIn]
  | ret value =>
    unfold lower
    by_cases hb : here.body = .block
    · rw [if_pos hb]
      refine ⟨fun h => ?_, fun h => absurd hb h.1⟩
      exact absurd h (not_gives_error _)
    · rw [if_neg hb]
      rw [gives_bind_iff (P := True) (fun ⟨_, _⟩ => by simp), gives_lowerOption_iff]
      simp [parts, MisplacedIn, Place.setting, hb]
  | brk =>
    unfold lower
    cases hl : here.inLoop <;> simp [parts, MisplacedIn, Place.setting, hl]
  | next value =>
    unfold lower
    cases hl : here.inLoop with
    | true =>
      rw [if_pos rfl, gives_bind_iff (P := True) (fun ⟨_, _⟩ => by simp), gives_lowerDropped_iff]
      simp [parts, MisplacedIn, Place.setting, hl]
    | false =>
      rw [if_neg (by simp)]
      by_cases hb : here.body = .block
      · rw [if_pos hb, gives_bind_iff (P := True) (fun ⟨_, _⟩ => by simp), gives_lowerOption_iff]
        simp [parts, MisplacedIn, Place.setting, hl, hb]
      · rw [if_neg hb]
        simp [MisplacedIn, Place.setting, hl, hb]
  | method name params body =>
    unfold lower
    rw [gives_bind_iff (P := True) (fun ⟨_, _⟩ => by simp), gives_lowerBody_iff]
    simp [parts, MisplacedIn, Place.setting]

theorem gives_lowerOption_iff (here : Place) (t : ScopeTree) (e : Option Expr) :
    Gives (lowerOption here t e) ↔ ∀ x ∈ e, WellPlaced here.setting x := by
  cases e with
  | none => simp [lowerOption]
  | some e => simp [lowerOption, gives_lower_iff here t e]

theorem gives_lowerDropped_iff (here : Place) (t : ScopeTree) (e : Option Expr) :
    Gives (lowerDropped here t e) ↔ ∀ x ∈ e, WellPlaced here.setting x := by
  cases e with
  | none => simp [lowerDropped]
  | some e =>
    unfold lowerDropped
    rw [gives_bind_iff (P := True) (fun ⟨_, _⟩ => by simp), gives_lower_iff here t e]
    simp

/-- A receiver that is `self` is left out, and it was not misplaced. -/
theorem gives_lowerReceiver_iff (here : Place) (t : ScopeTree) (e : Option Expr) :
    Gives (lowerReceiver here t e) ↔ ∀ x ∈ e, WellPlaced here.setting x := by
  cases e with
  | none => simp [lowerReceiver]
  | some e =>
    unfold lowerReceiver
    split
    · rename_i heq
      cases heq
    · rename_i heq
      cases heq
      simp [wellPlaced_self]
    · rename_i heq
      cases heq
      rw [gives_bind_iff (P := True) (fun ⟨_, _⟩ => by simp), gives_lower_iff here t e]
      simp

theorem gives_lowerAll_iff (here : Place) (t : ScopeTree) (es : List Expr) :
    Gives (lowerAll here t es) ↔ ∀ x ∈ es, WellPlaced here.setting x := by
  cases es with
  | nil => simp [lowerAll]
  | cons e rest =>
    unfold lowerAll
    rw [gives_bind_iff (P := ∀ x ∈ rest, WellPlaced here.setting x) (fun ⟨_, _⟩ => by
      rw [gives_bind_iff (P := True) (fun ⟨_, _⟩ => by simp), gives_lowerAll_iff, and_true]),
      gives_lower_iff here t e]
    simp

theorem gives_lowerStatements_iff (here : Place) (t : ScopeTree) (es : List Expr) :
    Gives (lowerStatements here t es) ↔ ∀ x ∈ es, WellPlaced here.setting x := by
  cases es with
  | nil => simp [lowerStatements]
  | cons e rest =>
    unfold lowerStatements
    rw [gives_bind_iff (P := ∀ x ∈ rest, WellPlaced here.setting x) (fun ⟨_, _⟩ => by
      rw [gives_bind_iff (P := True) (fun ⟨_, _⟩ => by simp), gives_lowerStatements_iff, and_true]),
      gives_lower_iff here t e]
    simp

/-- A body is lowered when all its statements can be. -/
theorem gives_lowerBody_iff (here : Place) (t : ScopeTree) (es : List Expr) :
    Gives (lowerBody here t es) ↔ ∀ x ∈ es, WellPlaced here.setting x := by
  cases es with
  | nil => simp [lowerBody]
  | cons e rest =>
    cases rest with
    | nil =>
      unfold lowerBody
      rw [gives_lower_iff here t e]
      simp
    | cons e' rest =>
      unfold lowerBody
      rw [gives_bind_iff (P := ∀ x ∈ e' :: rest, WellPlaced here.setting x) (fun ⟨_, _⟩ => by
        rw [gives_bind_iff (P := True) (fun ⟨_, _⟩ => by simp), gives_lowerBody_iff, and_true]),
        gives_lower_iff here t e]
      simp

end

end Expr

end StackCode
