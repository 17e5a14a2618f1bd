import StackCode.Proofs.Generation

/-!
# What becomes of nested code in C

`Translates t p r d code q r' d'` is a derivation of what nested code becomes: it follows the
structure of the blocks, as `Nested` does, and says at every point of the code what the region holds
and how far the unit has grown. Disciplined code always has one (`exists_translates`), and it
is what the generator makes of the code (`Translates.generateWithin`), so that making C of a program
never fails (`exists_generate`).

Three facts about every derivation are what the meaning of the C rests on.

* A unit in the making only grows (`Translates.grows`), so that what a statement refers to is still
  there in the end.
* The symbolic operands are as many as the operands of the machine, and those from before a loop
  stay what they are inside of it (`Translates.aligned`).
* An operand is never a temp that is taken only later (`Translates.bounded`), so that the temps which
  the arms of a conditional are merged into stand for nothing else.
-/

namespace StackCode.CUnit

/-! ## Merging -/

section

variable {α : Type} [DecidableEq α]

/-- How far two lists are the same, from the front. -/
def sharedLength (a b : List α) : Nat := ((a.zip b).takeWhile fun (x, y) => x = y).length

/-- Two lists agree as far as they are shared. -/
theorem take_sharedLength (a b : List α) :
    a.take (sharedLength a b) = b.take (sharedLength a b) := by
  unfold sharedLength
  induction a generalizing b with
  | nil => simp
  | cons x a ih =>
    cases b with
    | nil => simp
    | cons y b =>
      by_cases hxy : x = y
      · simpa [hxy] using ih b
      · simp [hxy]

theorem sharedLength_le (a b : List α) :
    sharedLength a b ≤ a.length ∧ sharedLength a b ≤ b.length := by
  have h : sharedLength a b ≤ (a.zip b).length := (List.takeWhile_prefix _).length_le
  rw [List.length_zip] at h
  omega

/-- A common beginning is shared. -/
theorem length_le_sharedLength {a b l : List α} (ha : l <+: a) (hb : l <+: b) :
    l.length ≤ sharedLength a b := by
  obtain ⟨a, rfl⟩ := ha
  obtain ⟨b, rfl⟩ := hb
  unfold sharedLength
  induction l with
  | nil => simp
  | cons x l ih => simpa using ih

end

/-- No more is shared than there is. -/
theorem sharedHeight_le (a b : List Operand) :
    sharedHeight a b ≤ a.length ∧ sharedHeight a b ≤ b.length := by
  have h := sharedLength_le a.reverse b.reverse
  rw [List.length_reverse, List.length_reverse] at h
  exact h

/-- Two stacks are the same as far up as they share operands. -/
theorem drop_sharedHeight {a b : List Operand} {k : Nat} (hk : k ≤ sharedHeight a b) :
    a.drop (a.length - k) = b.drop (b.length - k) := by
  have h := congrArg (List.take k) (take_sharedLength a.reverse b.reverse)
  have hmin : min k (sharedLength a.reverse b.reverse) = k := Nat.min_eq_left hk
  rw [List.take_take, List.take_take, hmin, List.take_reverse, List.take_reverse] at h
  exact List.reverse_inj.mp h

/-- What both stacks stand on is shared. -/
theorem length_le_sharedHeight {a b l : List Operand} (ha : l <:+ a) (hb : l <:+ b) :
    l.length ≤ sharedHeight a b := by
  rw [← List.length_reverse]
  exact length_le_sharedLength (List.reverse_prefix.mpr ha) (List.reverse_prefix.mpr hb)

/-- How many of the operands `before` two arms both leave as they are. -/
def kept (before : List Operand) (yes no : Region) : Nat :=
  min (sharedHeight yes.stack before) (sharedHeight no.stack before)

/-- How many operands are merged when two arms are brought together. -/
def live (before : List Operand) (yes no : Region) : Nat :=
  min (yes.stack.length - kept before yes no) (no.stack.length - kept before yes no)

/-- The temps that the arms are merged into. -/
def mergeTemps (next : Nat) (before : List Operand) (yes no : Region) : List Nat :=
  (List.range (live before yes no)).map (next + ·)

theorem length_mergeTemps (next : Nat) (before : List Operand) (yes no : Region) :
    (mergeTemps next before yes no).length = live before yes no := by
  simp [mergeTemps]

/-- Two arms are merged above what both have left in place. -/
theorem merge_eq (next : Nat) (before : List Operand) (yes no : Region) :
    merge next before [yes, no] =
      { temps := mergeTemps next before yes no
        arms := [assignTop (mergeTemps next before yes no) yes,
          assignTop (mergeTemps next before yes no) no]
        stack := ((mergeTemps next before yes no).map Operand.temp).reverse ++
          before.drop (before.length - kept before yes no) } :=
  rfl

/-- The region behind a conditional: it declares the temps that the arms are merged into. -/
def Region.joined (r : Region) (condition : Operand) (next : Nat) (yes no : Region) : Region :=
  let temps := mergeTemps next r.stack yes no
  { stack := (temps.map Operand.temp).reverse ++ r.stack.drop (r.stack.length - kept r.stack yes no)
    code := .ifElse condition (assignTop temps yes).statements (assignTop temps no).statements ::
      ((temps.map Stmt.declareNil).reverse ++ r.code) }

/-- The temps of a merge are declared in front of the conditional. -/
theorem foldl_declareNil (temps : List Nat) (r : Region) :
    temps.foldl (fun r t => r.emit (.declareNil t)) r =
      { r with code := (temps.map Stmt.declareNil).reverse ++ r.code } := by
  induction temps generalizing r with
  | nil => rfl
  | cons t rest ih =>
    rw [List.foldl_cons, ih, List.map_cons, List.reverse_cons, List.append_assoc]
    rfl

/-- The statements that an arm ends with, when its last operands have been assigned to temps. -/
theorem statements_assignTop (temps : List Nat) (arm : Region) :
    (assignTop temps arm).statements = arm.statements ++
      (temps.zip (arm.stack.take temps.length).reverse).map fun (t, v) => Stmt.assign t v := by
  have hfold : ∀ (l : List (Nat × Operand)) (r : Region),
      (l.foldl (fun r (t, v) => r.emit (.assign t v)) r).statements =
        r.statements ++ l.map fun (t, v) => Stmt.assign t v := by
    intro l
    induction l with
    | nil => simp
    | cons x l ih =>
      intro r
      rw [List.foldl_cons, ih, Region.statements_emit, List.append_assoc]
      rfl
  exact hfold _ arm

/-! ## Derivations -/

/-- At the point `p` the region holds the operands of the machine. The lowest of them, from before
the innermost loop, are `held`. -/
structure Aligned (p : Point) (r : Region) (held : List Operand) : Prop where
  length : r.stack.length = p.height
  floor : held.length ≤ p.floor
  held : held <:+ r.stack

/-- The code, which leads from the point `p` to `q`, makes the region `r'` of `r` and the unit `d'`
of `d`. -/
inductive Translates (t : ScopeTree) :
    Point → Region → Draft → List Instruction → Point → Region → Draft → Prop
  | nil (p : Point) (r : Region) (d : Draft) : Translates t p r d [] p r d
  | plain {p q : Point} {r r₁ r' : Region} {d d₁ d' : Draft} {i : Instruction}
      {rest : List Instruction} {taken left : Nat} (ha : (placement t).admits p i = true)
      (he : i.op.effect? = some (taken, left)) (hh : taken ≤ p.height)
      (hstep : ∀ run after, step t run i after r d = .ok ((r₁, after), d₁))
      (hadvances : Advances taken left r d r₁ d₁)
      (hr : Translates t (p.atHeight (p.height - taken + left)) r₁ d₁ rest q r' d') :
      Translates t p r d (i :: rest) q r' d'
  | cond {p q y n : Point} {r yesArm noArm r' : Region} {d d₁ d₂ d' : Draft} {v : Operand}
      {below : List Operand} {i j k : Instruction} {yes no rest : List Instruction}
      (ha : (placement t).admits p i = true) (hi : i.op = .ifTrue) (hj : j.op = .orElse)
      (hk : k.op = .endBlock .cond) (hs : r.stack = v :: below)
      (hy : Translates t (p.atHeight (p.height - 1)) { stack := below } d yes y yesArm d₁)
      (hn : Translates t (p.atHeight (p.height - 1)) { stack := below } d₁ no n noArm d₂)
      (heq : n.height = y.height)
      (hr : Translates t (p.atHeight y.height)
        ({ r with stack := below }.joined v d₂.nextTemp yesArm noArm)
        (d₂.addTemps (live below yesArm noArm)) rest q r' d') :
      Translates t p r d (i :: (yes ++ j :: (no ++ k :: rest))) q r' d'
  | loop {p q a b : Point} {r testPart bodyPart r' : Region} {d d₁ d₂ d' : Draft} {v : Operand}
      {below : List Operand} {i j k : Instruction} {test body rest : List Instruction}
      (ha : (placement t).admits p i = true) (hi : i.op = .whileTrue) (hj : j.op = .loopBody)
      (hk : k.op = .endBlock .loop)
      (ht : Translates t p.inLoop { stack := r.stack } d test a testPart d₁)
      (htest : a.height = p.height + 1) (hs : testPart.stack = v :: below)
      (hb : Translates t p.inLoop { stack := r.stack } d₁ body b bodyPart d₂)
      (hbody : b.height = p.height)
      (hr : Translates t (p.atHeight p.height)
        (r.emit (.loop testPart.statements v bodyPart.statements)) d₂ rest q r' d') :
      Translates t p r d (i :: (test ++ j :: (body ++ k :: rest))) q r' d'
  | method {p q b : Point} {r inner r' : Region} {d d₁ d' : Draft} {v : Operand}
      {below : List Operand} {owned : Scope} {i k : Instruction} {name : String} {s : ScopeId}
      {body rest : List Instruction} (ha : (placement t).admits p i = true)
      (hi : i.op = .defineMethod name s) (hk : k.op = .endBlock .method)
      (hb : Translates t (.start .method s) {} d.addNumber body b inner d₁) (hbody : b.height = 1)
      (hs : inner.stack = v :: below) (hget : t.get? s = some owned)
      (hr : Translates t (p.atHeight (p.height + 1))
        ((r.emit (.defineMethod (d₁.symbolRef name) (.method d.nextFunction name))).push
          (.literal (.sym (d₁.symbolRef name))))
        ((d₁.addSymbol name).addFunction
          (inner.toFunction (.method d.nextFunction name) s owned v)) rest q r' d') :
      Translates t p r d (i :: (body ++ k :: rest)) q r' d'
  | block {p q b : Point} {r inner r' : Region} {d d₁ d' : Draft} {v : Operand}
      {below : List Operand} {owned : Scope} {i k : Instruction} {s : ScopeId}
      {body rest : List Instruction} (ha : (placement t).admits p i = true)
      (hi : i.op = .defineBlock s) (hk : k.op = .endBlock .block)
      (hb : Translates t (.start .block s) {} d.addNumber body b inner d₁) (hbody : b.height = 1)
      (hs : inner.stack = v :: below) (hget : t.get? s = some owned)
      (hr : Translates t (p.behindBlock true)
        (r.memoize d₁.nextTemp (.closure (.block d.nextFunction)))
        ((d₁.addFunction (inner.toFunction (.block d.nextFunction) s owned v)).addTemps 1)
        rest q r' d') :
      Translates t p r d (i :: (body ++ k :: rest)) q r' d'

variable {t : ScopeTree} {p q : Point} {r r' : Region} {d d' : Draft} {code : List Instruction}
  {held : List Operand}

/-- What is translated is nested code. -/
theorem Translates.nested (h : Translates t p r d code q r' d') :
    Nested (placement t) p code q := by
  induction h with
  | nil p => exact .nil p
  | plain ha he hh _ _ _ ih => exact .plain ha he hh ih
  | cond ha hi hj hk _ _ _ heq _ ihy ihn ihr =>
    refine .cond ha hi hj hk ?_ ihy ihn heq ihr
    have hfloor := (admits_placement_iff.mp ha).2.2.1
    rw [hi] at hfloor
    exact Nat.lt_of_lt_of_le (Nat.lt_of_lt_of_le Nat.zero_lt_one (Nat.le_add_left _ _)) hfloor
  | loop ha hi hj hk _ htest _ _ hbody _ iht ihb ihr =>
    exact .loop ha hi hj hk iht htest ihb hbody ihr
  | method ha hi hk _ hbody _ _ _ ihb ihr => exact .method ha hi hk ihb hbody ihr
  | block ha hi hk _ hbody _ _ _ ihb ihr => exact .block ha hi hk ihb hbody ihr

/-- **A unit in the making only grows.** -/
theorem Translates.grows (h : Translates t p r d code q r' d') : d.Grows d' := by
  induction h with
  | nil _ _ d => exact .refl d
  | plain _ _ _ _ hadvances _ ih => exact hadvances.grows.trans ih
  | @cond _ _ _ _ _ _ _ _ _ _ d₂ _ _ _ _ _ _ _ _ _ _ _ _ _ _ _ _ _ _ ihy ihn ihr =>
    exact ihy.trans (ihn.trans ((d₂.grows_addTemps _).trans ihr))
  | loop _ _ _ _ _ _ _ _ _ _ iht ihb ihr => exact iht.trans (ihb.trans ihr)
  | method _ _ _ _ _ _ _ _ ihb ihr =>
    exact ((ihb.trans (Draft.grows_addSymbol _ _)).addFunction rfl).trans ihr
  | block _ _ _ _ _ _ _ _ ihb ihr =>
    exact (ihb.addFunction rfl).trans ((Draft.grows_addTemps _ _).trans ihr)

/-! ## The operands of a region -/

/-- The operands from before the loop are among those that an instruction leaves alone. -/
theorem Aligned.below (h : Aligned p r held) {n : Nat} (hn : p.floor + n ≤ p.height) :
    held <:+ r.stack.drop n := by
  obtain ⟨top, htop⟩ := h.held
  have hlength := h.length
  have hfloor := h.floor
  rw [← htop, List.length_append] at hlength
  rw [← htop, List.drop_append_of_le_length (by omega)]
  exact List.suffix_append _ _

theorem Aligned.advances {taken left : Nat} {r₁ : Region} {d₁ : Draft} {i : Instruction}
    (h : Aligned p r held) (ha : (placement t).admits p i = true)
    (he : i.op.effect? = some (taken, left)) (hadvances : Advances taken left r d r₁ d₁) :
    Aligned (p.atHeight (p.height - taken + left)) r₁ held := by
  have hfloor := (admits_placement_iff.mp ha).2.2.1
  rw [Op.needs_of_effect he] at hfloor
  obtain ⟨new, hnew, hstack, -⟩ := hadvances.stack
  refine ⟨?_, h.floor, ?_⟩
  · rw [hstack, List.length_append, List.length_drop, hnew, h.length, Point.atHeight_height]
    omega
  · rw [hstack]
    exact (h.below hfloor).trans (List.suffix_append _ _)

/-- One more operand. -/
theorem Aligned.push {p' : Point} {r₁ : Region} {v : Operand} (h : Aligned p r held)
    (hs : r₁.stack = v :: r.stack) (hheight : p'.height = p.height + 1)
    (hfloor : p'.floor = p.floor) : Aligned p' r₁ held := by
  refine ⟨?_, hfloor ▸ h.floor, ?_⟩
  · rw [hs, hheight, List.length_cons, h.length]
  · rw [hs]
    exact h.held.trans (List.suffix_cons _ _)

/-- Inside a loop all operands are from before it. -/
theorem Aligned.inLoop (h : Aligned p r held) :
    Aligned p.inLoop { stack := r.stack } r.stack :=
  ⟨h.length, Nat.le_of_eq h.length, List.suffix_refl _⟩

/-- The arms of a conditional start without the condition. -/
theorem Aligned.arm {i : Instruction} {v : Operand} {below : List Operand} (h : Aligned p r held)
    (ha : (placement t).admits p i = true) (hi : i.op = .ifTrue) (hs : r.stack = v :: below) :
    Aligned (p.atHeight (p.height - 1)) { stack := below } held := by
  have hfloor := (admits_placement_iff.mp ha).2.2.1
  have hneeds : i.op.needs = 1 := by rw [hi]; rfl
  rw [hneeds] at hfloor
  have hbelow := h.below hfloor
  have hlength := h.length
  rw [hs] at hbelow hlength
  refine ⟨?_, h.floor, hbelow⟩
  rw [List.length_cons] at hlength
  rw [Point.atHeight_height, ← hlength]
  rfl

/-- What both arms leave as it is, is what they leave below the operands that are merged. -/
theorem length_live (before : List Operand) {yes no : Region}
    (heq : no.stack.length = yes.stack.length) :
    yes.stack.length = live before yes no + kept before yes no := by
  have hy := (sharedHeight_le yes.stack before).1
  have hn := (sharedHeight_le no.stack before).1
  unfold live kept
  omega

/-- Behind a conditional there are as many operands as behind each of its arms. -/
theorem Region.length_joined (r : Region) (condition : Operand) (next : Nat) {yes no : Region}
    (heq : no.stack.length = yes.stack.length) :
    (r.joined condition next yes no).stack.length = yes.stack.length := by
  have hlive := length_live r.stack heq
  have hle : kept r.stack yes no ≤ r.stack.length :=
    Nat.le_trans (Nat.min_le_left _ _) (sharedHeight_le yes.stack r.stack).2
  simp only [Region.joined, List.length_append, List.length_reverse, List.length_map,
    length_mergeTemps, List.length_drop]
  omega

theorem Aligned.joined {y : Point} {yesArm noArm : Region} (condition : Operand) (next : Nat)
    (hr : held <:+ r.stack) (hy : Aligned (p.atHeight y.height) yesArm held)
    (hn : Aligned (p.atHeight y.height) noArm held) :
    Aligned (p.atHeight y.height) (r.joined condition next yesArm noArm) held := by
  have hheight : noArm.stack.length = yesArm.stack.length := hn.length.trans hy.length.symm
  have hkept : held.length ≤ kept r.stack yesArm noArm :=
    Nat.le_min.mpr ⟨length_le_sharedHeight hy.held hr, length_le_sharedHeight hn.held hr⟩
  refine ⟨(r.length_joined condition next hheight).trans hy.length, hy.floor, ?_⟩
  refine List.IsSuffix.trans ?_ (List.suffix_append _ _)
  obtain ⟨top, htop⟩ := hr
  have hle : kept r.stack yesArm noArm ≤ r.stack.length :=
    Nat.le_trans (Nat.min_le_left _ _) (sharedHeight_le yesArm.stack r.stack).2
  generalize kept r.stack yesArm noArm = k at hle hkept ⊢
  rw [← htop, List.length_append] at hle ⊢
  rw [List.drop_append_of_le_length (by omega)]
  exact List.suffix_append _ _

/-- **The region holds as many operands as the machine, and those from before a loop stay** what
they are inside of it. -/
theorem Translates.aligned (h : Translates t p r d code q r' d') {held : List Operand}
    (hp : Aligned p r held) : Aligned q r' held := by
  induction h generalizing held with
  | nil => exact hp
  | plain ha he _ _ hadvances _ ih => exact ih (hp.advances ha he hadvances)
  | @cond p q y n r yesArm noArm r' d d₁ d₂ d' v below i j k yes no rest ha hi _ _ hs hy hn heq _ ihy
      ihn ihr =>
    have harm := hp.arm ha hi hs
    have hyes := ihy harm
    have hno := ihn harm
    refine ihr (Aligned.joined (y := y) v _ harm.held ⟨hyes.length, hp.floor, hyes.held⟩ ?_)
    exact ⟨hno.length.trans heq, hp.floor, hno.held⟩
  | loop _ _ _ _ _ _ _ _ _ _ _ _ ihr => exact ihr ⟨hp.length, hp.floor, hp.held⟩
  | method _ _ _ _ _ _ _ _ _ ihr | block _ _ _ _ _ _ _ _ _ ihr =>
    exact ihr (hp.push rfl rfl rfl)

/-- The temps that the operands of the region are have been taken. -/
def Region.Bounded (r : Region) (d : Draft) : Prop := ∀ n, .temp n ∈ r.stack → n < d.nextTemp

/-- A new operand is a temp that has just been taken, or it was there before. -/
theorem Region.Bounded.advances {taken left : Nat} {r₁ : Region} {d₁ : Draft} (h : r.Bounded d)
    (hadvances : Advances taken left r d r₁ d₁) : r₁.Bounded d₁ := by
  obtain ⟨new, -, hstack, hnew⟩ := hadvances.stack
  have hold : ∀ n, .temp n ∈ r.stack → n < d₁.nextTemp := fun n hn =>
    Nat.lt_of_lt_of_le (h n hn) hadvances.grows.temps
  intro n hn
  rw [hstack] at hn
  rcases List.mem_append.mp hn with hn | hn
  · exact (hnew n hn).elim id (hold n)
  · exact hold n (List.mem_of_mem_drop hn)

/-- The temps of a merge are new, and have been taken behind it. -/
theorem Region.Bounded.joined {yesArm noArm : Region} (h : r.Bounded d) (condition : Operand)
    (hd : d.nextTemp ≤ d'.nextTemp) :
    (r.joined condition d'.nextTemp yesArm noArm).Bounded
      (d'.addTemps (live r.stack yesArm noArm)) := by
  intro n hn
  show n < d'.nextTemp + live r.stack yesArm noArm
  rcases List.mem_append.mp hn with hn | hn
  · simp only [mergeTemps, List.map_map, List.mem_reverse, List.mem_map, List.mem_range,
      Function.comp, Operand.temp.injEq] at hn
    omega
  · have := h n (List.mem_of_mem_drop hn)
    omega

/-- **An operand is no temp that is yet to be taken.** -/
theorem Translates.bounded (h : Translates t p r d code q r' d') (hr : r.Bounded d) :
    r'.Bounded d' := by
  induction h with
  | nil => exact hr
  | plain _ _ _ _ hadvances _ ih => exact ih (hr.advances hadvances)
  | @cond _ _ _ _ r yesArm noArm _ d _ d₂ _ v below _ _ _ _ _ _ _ _ _ _ hs hy hn _ _ _ _ ihr =>
    have hbelow : { r with stack := below }.Bounded d := fun n hn =>
      hr n (hs ▸ List.mem_cons_of_mem v hn)
    exact ihr (hbelow.joined v (Nat.le_trans hy.grows.temps hn.grows.temps))
  | loop _ _ _ _ ht _ _ hb _ _ _ _ ihr =>
    exact ihr fun n hn => Nat.lt_of_lt_of_le (hr n hn)
      (Nat.le_trans ht.grows.temps hb.grows.temps)
  | method _ _ _ hb _ _ _ _ _ ihr =>
    refine ihr fun n hn => ?_
    rcases List.mem_cons.mp hn with hn | hn
    · cases hn
    · exact Nat.lt_of_lt_of_le (hr n hn) hb.grows.temps
  | block _ _ _ hb _ _ _ _ _ ihr =>
    refine ihr fun n hn => ?_
    rcases List.mem_cons.mp hn with hn | hn
    · cases hn
      exact Nat.lt_succ_self _
    · exact Nat.lt_succ_of_lt (Nat.lt_of_lt_of_le (hr n hn) hb.grows.temps)

theorem aligned_start (body : BodyKind) (s : ScopeId) : Aligned (.start body s) {} [] :=
  ⟨rfl, Nat.le_refl _, List.nil_suffix⟩

/-- A body leaves a result. -/
theorem Translates.exists_result {body : BodyKind} {s : ScopeId}
    (h : Translates t (.start body s) {} d code q r' d') (hq : q.height = 1) :
    ∃ v, r'.stack = [v] := by
  have hlength := (h.aligned (aligned_start body s)).length
  rw [hq] at hlength
  exact List.length_eq_one_iff.mp hlength

/-! ## Every derivation is what the generator does -/

theorem cut_ok {seg : Segment} {sought : Terminator} {label : Option BlockLabel}
    {parts : Segment × Segment} (h : seg.takeBlock sought label = .ok parts) (d : Draft) :
    cut seg sought label d = .ok (parts, d) :=
  lift_ok h d

theorem function_ok {run : Segment → Region → Gen Region} (name : FunctionName) {scope : ScopeId}
    {body : Segment} {inner : Region} {v : Operand} {below : List Operand} {owned : Scope}
    (hrun : run body {} d = .ok (inner, d')) (hs : inner.stack = v :: below)
    (hget : t.get? scope = some owned) :
    function t run name scope body d = .ok (inner.toFunction name scope owned v, d') := by
  unfold function
  rw [gen_bind hrun]
  simp only [hs, hget]
  rfl

section

variable {run : Segment → Region → Gen Region} {seg a mid b after : Segment} {i : Instruction}
  {d₁ d₂ : Draft} {v : Operand} {below : List Operand}

theorem step_cond {yesArm noArm : Region} (hi : i.op = .ifTrue) (hs : r.stack = v :: below)
    (hcut : seg.takeBlock .orElse none = .ok (a, mid))
    (hcut' : mid.takeBlock .ending (some .cond) = .ok (b, after))
    (hyes : run a { stack := below } d = .ok (yesArm, d₁))
    (hno : run b { stack := below } d₁ = .ok (noArm, d₂)) :
    step t run i seg r d =
      .ok (({ r with stack := below }.joined v d₂.nextTemp yesArm noArm, after),
        d₂.addTemps (live below yesArm noArm)) := by
  have hpop := lift_ok (Region.pop_of_stack hs (seg.start - 1)) d
  unfold step
  rw [hi]
  dsimp only
  rw [gen_bind hpop, gen_bind (cut_ok hcut d), gen_bind (cut_ok hcut' d)]
  refine (gen_bind hyes).trans ((gen_bind hno).trans ?_)
  simp only [merge_eq, foldl_declareNil, length_mergeTemps]
  rfl

theorem step_loop {testPart bodyPart : Region} (hi : i.op = .whileTrue)
    (hcut : seg.takeBlock .loopBody none = .ok (a, mid))
    (hcut' : mid.takeBlock .ending (some .loop) = .ok (b, after))
    (htest : run a { stack := r.stack } d = .ok (testPart, d₁)) (hs : testPart.stack = v :: below)
    (hbody : run b { stack := r.stack } d₁ = .ok (bodyPart, d₂)) :
    step t run i seg r d =
      .ok ((r.emit (.loop testPart.statements v bodyPart.statements), after), d₂) := by
  have hpop := lift_ok (Region.pop_of_stack hs (seg.start - 1)) d₁
  unfold step
  rw [hi]
  dsimp only
  rw [gen_bind (cut_ok hcut d), gen_bind (cut_ok hcut' d)]
  exact (gen_bind htest).trans ((gen_bind hpop).trans (gen_bind hbody))

theorem step_method {name : String} {s : ScopeId} {inner : Region} {owned : Scope}
    (hi : i.op = .defineMethod name s) (hcut : seg.takeBlock .ending (some .method) = .ok (b, after))
    (hbody : run b {} d.addNumber = .ok (inner, d₁)) (hs : inner.stack = v :: below)
    (hget : t.get? s = some owned) :
    step t run i seg r d =
      .ok (((r.emit (.defineMethod (d₁.symbolRef name) (.method d.nextFunction name))).push
        (.literal (.sym (d₁.symbolRef name))), after),
        (d₁.addSymbol name).addFunction
          (inner.toFunction (.method d.nextFunction name) s owned v)) := by
  have hfunction := function_ok (.method d.nextFunction name) hbody hs hget
  unfold step
  rw [hi]
  dsimp only
  rw [gen_bind (cut_ok hcut d), gen_bind (x := freshFunction) (a := d.nextFunction) rfl]
  exact gen_bind hfunction

theorem step_block {s : ScopeId} {inner : Region} {owned : Scope} (hi : i.op = .defineBlock s)
    (hcut : seg.takeBlock .ending (some .block) = .ok (b, after))
    (hbody : run b {} d.addNumber = .ok (inner, d₁)) (hs : inner.stack = v :: below)
    (hget : t.get? s = some owned) :
    step t run i seg r d =
      .ok ((r.memoize d₁.nextTemp (.closure (.block d.nextFunction)), after),
        (d₁.addFunction (inner.toFunction (.block d.nextFunction) s owned v)).addTemps 1) := by
  have hfunction := function_ok (.block d.nextFunction) hbody hs hget
  unfold step
  rw [hi]
  dsimp only
  rw [gen_bind (cut_ok hcut d), gen_bind (x := freshFunction) (a := d.nextFunction) rfl]
  exact gen_bind hfunction

end

theorem generateWithin_cons {n start : Nat} {i : Instruction} {rest after : List Instruction}
    {stop : Nat} {r₁ : Region} {d₁ : Draft}
    (h : step t (generateWithin t n) i ⟨start + 1, rest⟩ r d = .ok ((r₁, ⟨stop, after⟩), d₁)) :
    generateWithin t (n + 1) ⟨start, i :: rest⟩ r d = generateWithin t n ⟨stop, after⟩ r₁ d₁ :=
  gen_bind h

/-- **A derivation says what the generator makes of the code.** -/
theorem Translates.generateWithin (h : Translates t p r d code q r' d') :
    ∀ n start, code.length ≤ n →
      CUnit.generateWithin t n ⟨start, code⟩ r d = .ok (r', d') := by
  induction h with
  | nil =>
    intro n start _
    cases n <;> rfl
  | plain _ _ _ hstep _ _ ih =>
    intro n start hn
    rw [List.length_cons] at hn
    obtain ⟨n, rfl⟩ : ∃ m, n = m + 1 := ⟨n - 1, by omega⟩
    rw [generateWithin_cons (hstep _ _)]
    exact ih n _ (by omega)
  | cond _ hi hj hk hs hy hn' _ _ ihy ihn ihr =>
    intro n start hn
    simp only [List.length_cons, List.length_append] at hn
    obtain ⟨n, rfl⟩ : ∃ m, n = m + 1 := ⟨n - 1, by omega⟩
    rw [generateWithin_cons (step_cond hi hs (hy.nested.takeBlock_orElse hj _ _)
      (hn'.nested.takeBlock_ending hk _ _) (ihy n _ (by omega)) (ihn n _ (by omega)))]
    exact ihr n _ (by omega)
  | loop _ hi hj hk ht _ hs hb _ _ iht ihb ihr =>
    intro n start hn
    simp only [List.length_cons, List.length_append] at hn
    obtain ⟨n, rfl⟩ : ∃ m, n = m + 1 := ⟨n - 1, by omega⟩
    rw [generateWithin_cons (step_loop hi (ht.nested.takeBlock_loopBody hj _ _)
      (hb.nested.takeBlock_ending hk _ _) (iht n _ (by omega)) hs (ihb n _ (by omega)))]
    exact ihr n _ (by omega)
  | method _ hi hk hb _ hs hget _ ihb ihr =>
    intro n start hn
    simp only [List.length_cons, List.length_append] at hn
    obtain ⟨n, rfl⟩ : ∃ m, n = m + 1 := ⟨n - 1, by omega⟩
    rw [generateWithin_cons (step_method hi (hb.nested.takeBlock_ending hk _ _)
      (ihb n _ (by omega)) hs hget)]
    exact ihr n _ (by omega)
  | block _ hi hk hb _ hs hget _ ihb ihr =>
    intro n start hn
    simp only [List.length_cons, List.length_append] at hn
    obtain ⟨n, rfl⟩ : ∃ m, n = m + 1 := ⟨n - 1, by omega⟩
    rw [generateWithin_cons (step_block hi (hb.nested.takeBlock_ending hk _ _)
      (ihb n _ (by omega)) hs hget)]
    exact ihr n _ (by omega)

/-! ## Disciplined code has a derivation -/

theorem fits_of_admits {i : Instruction} (ha : (placement t).admits p i = true) :
    i.op.fits t p.site i.scope = true :=
  (admits_placement_iff.mp ha).2.2.2

/-- **Disciplined code becomes C**, from whatever region has as many operands as the machine. -/
theorem exists_translates (h : Nested (placement t) p code q) :
    ∀ (r : Region) (d : Draft) (held : List Operand), Aligned p r held →
      ∃ r' d', Translates t p r d code q r' d' := by
  induction h with
  | nil p => exact fun r d _ _ => ⟨r, d, .nil p r d⟩
  | @plain p q i rest taken left ha he hh _ ih =>
    intro r d held hp
    obtain ⟨r₁, d₁, hstep, hadvances⟩ := exists_step ha he r d (by rw [hp.length]; exact hh)
    obtain ⟨r', d', hr⟩ := ih r₁ d₁ held (hp.advances ha he hadvances)
    exact ⟨r', d', .plain ha he hh hstep hadvances hr⟩
  | @cond p q y n i j k yes no rest ha hi hj hk hh _ _ heq _ ihy ihn ihr =>
    intro r d held hp
    obtain ⟨v, below, hs⟩ : ∃ v below, r.stack = v :: below :=
      exists_top (by rw [hp.length]; exact hh)
    have harm := hp.arm ha hi hs
    obtain ⟨yesArm, d₁, hy⟩ := ihy { stack := below } d held harm
    obtain ⟨noArm, d₂, hn⟩ := ihn { stack := below } d₁ held harm
    have hyes := hy.aligned harm
    have hno := hn.aligned harm
    obtain ⟨r', d', hr⟩ := ihr ({ r with stack := below }.joined v d₂.nextTemp yesArm noArm)
      (d₂.addTemps (live below yesArm noArm)) held
      (Aligned.joined (r := { r with stack := below }) (y := y) v _ harm.held
        ⟨hyes.length, hp.floor, hyes.held⟩ ⟨hno.length.trans heq, hp.floor, hno.held⟩)
    exact ⟨r', d', .cond ha hi hj hk hs hy hn heq hr⟩
  | @loop p q a b i j k test body rest ha hi hj hk _ htest _ hbody _ iht ihb ihr =>
    intro r d held hp
    obtain ⟨testPart, d₁, ht⟩ := iht { stack := r.stack } d r.stack hp.inLoop
    obtain ⟨v, below, hs⟩ : ∃ v below, testPart.stack = v :: below :=
      exists_top (by rw [(ht.aligned hp.inLoop).length, htest]; omega)
    obtain ⟨bodyPart, d₂, hb⟩ := ihb { stack := r.stack } d₁ r.stack hp.inLoop
    obtain ⟨r', d', hr⟩ := ihr (r.emit (.loop testPart.statements v bodyPart.statements)) d₂ held
      ⟨hp.length, hp.floor, hp.held⟩
    exact ⟨r', d', .loop ha hi hj hk ht htest hs hb hbody hr⟩
  | @method p q b i k name s body rest ha hi hk _ hbody _ ihb ihr =>
    intro r d held hp
    obtain ⟨inner, d₁, hb⟩ := ihb {} d.addNumber [] (aligned_start _ _)
    obtain ⟨v, hs⟩ := hb.exists_result hbody
    have hfits := fits_of_admits ha
    rw [hi] at hfits
    obtain ⟨owned, hget, -⟩ := Op.opensMethod_iff.mp hfits
    obtain ⟨r', d', hr⟩ := ihr
      ((r.emit (.defineMethod (d₁.symbolRef name) (.method d.nextFunction name))).push
        (.literal (.sym (d₁.symbolRef name))))
      ((d₁.addSymbol name).addFunction (inner.toFunction (.method d.nextFunction name) s owned v))
      held (hp.push rfl rfl rfl)
    exact ⟨r', d', .method ha hi hk hb hbody hs hget hr⟩
  | @block p q b i k s body rest ha hi hk _ hbody _ ihb ihr =>
    intro r d held hp
    obtain ⟨inner, d₁, hb⟩ := ihb {} d.addNumber [] (aligned_start _ _)
    obtain ⟨v, hs⟩ := hb.exists_result hbody
    have hfits := fits_of_admits ha
    rw [hi] at hfits
    obtain ⟨owned, _, hget, -⟩ := Op.opensBlock_iff.mp hfits
    obtain ⟨r', d', hr⟩ := ihr (r.memoize d₁.nextTemp (.closure (.block d.nextFunction)))
      ((d₁.addFunction (inner.toFunction (.block d.nextFunction) s owned v)).addTemps 1) held
      (hp.push rfl rfl rfl)
    exact ⟨r', d', .block ha hi hk hb hbody hs hget hr⟩

/-! ## Programs -/

/-- The finished unit, with this top level. -/
def Draft.toUnit (d : Draft) (settings : Settings) (main : Function) : CUnit :=
  { maxCallDepth := settings.maxCallDepth, echo := settings.echo, symbols := d.symbols.entries,
    strings := d.strings.entries, functions := d.functions, main }

/-- The top level gives its last operand, or nil when it has none. -/
def Region.result (r : Region) : Operand := r.stack.headD (.literal .nil)

theorem function_main {run : Segment → Region → Gen Region} {scope : ScopeId} {body : Segment}
    {inner : Region} {owned : Scope} (hrun : run body {} d = .ok (inner, d'))
    (hget : t.get? scope = some owned) :
    function t run .main scope body d =
      .ok (inner.toFunction .main scope owned inner.result, d') := by
  cases hs : inner.stack with
  | cons v below =>
    rw [function_ok .main hrun hs hget, Region.result, hs]
    rfl
  | nil =>
    unfold function Region.result
    rw [gen_bind hrun]
    simp only [hs, hget]
    rfl

/-- **A disciplined program becomes a unit**, which is made of all of its code. -/
theorem exists_generate {P : Program} {n : Nat} (h : P.Disciplined n) (settings : Settings) :
    ∃ r d owned, Translates P.scopes .top {} {} P.code (Point.top.atHeight n) r d ∧
      P.scopes.get? .root = some owned ∧
      generate settings P =
        .ok (d.toUnit settings (r.toFunction .main .root owned r.result)) := by
  obtain ⟨owned, hget, -⟩ := Op.opensMethod_iff.mp h.top
  obtain ⟨r, d, hr⟩ := exists_translates (nested_of_scan h.code) {} {} []
    (aligned_start .top .root)
  refine ⟨r, d, owned, hr, hget, ?_⟩
  have hmain := function_main (hr.generateWithin P.code.length 0 (Nat.le_refl _)) hget
  show Except.bind (function P.scopes _ .main .root ⟨0, P.code⟩ {}) _ = _
  rw [hmain]
  rfl

end StackCode.CUnit
