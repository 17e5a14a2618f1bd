import StackCode.Proofs.TempScopes

/-!
# Every temp is declared once

Numbers of temps are never given twice, so each temp is declared at most once in a whole unit. The
count that shows it is a `budget`: the declarations so far, and one more for a number that is not
taken yet. No step raises it, and a discarded operand that loses its declaration lowers it, so that
this temp is declared nowhere in the end. With `Generates.flows` it is then used nowhere either
(`generate_temps_scoped`).
-/

namespace StackCode.CUnit

/-! ## Counting declarations -/

mutual

/-- How often a statement declares the temp. -/
def Stmt.declarations (n : Nat) : Stmt → Nat
  | .declare t _ | .declareNil t => if t = n then 1 else 0
  | .ifElse _ yes no => Stmt.declarationsIn n yes + Stmt.declarationsIn n no
  | .loop test _ body => Stmt.declarationsIn n test + Stmt.declarationsIn n body
  | .eval _ | .assign .. | .store .. | .checkArgs _ | .defineMethod .. | .ret _ | .breakLoop
  | .continueLoop | .exit | .setVisibility _ | .verbatim _ | .indented _ => 0

/-- How often statements declare the temp. -/
def Stmt.declarationsIn (n : Nat) : List Stmt → Nat
  | [] => 0
  | s :: rest => Stmt.declarations n s + Stmt.declarationsIn n rest

end

section

variable {n : Nat}

/-- Declarations of two pieces add up. -/
theorem declarationsIn_append (a b : List Stmt) :
    Stmt.declarationsIn n (a ++ b) = Stmt.declarationsIn n a + Stmt.declarationsIn n b := by
  induction a with
  | nil => simp [Stmt.declarationsIn]
  | cons s rest ih => simp [Stmt.declarationsIn, ih, Nat.add_assoc]

theorem declarationsIn_singleton (s : Stmt) :
    Stmt.declarationsIn n [s] = Stmt.declarations n s := by
  simp [Stmt.declarationsIn]

/-- Statements that declare nothing, one by one. -/
theorem declarationsIn_eq_zero {stmts : List Stmt}
    (h : ∀ s ∈ stmts, Stmt.declarations n s = 0) : Stmt.declarationsIn n stmts = 0 := by
  induction stmts with
  | nil => simp [Stmt.declarationsIn]
  | cons s rest ih =>
    rw [Stmt.declarationsIn, h s (by simp), ih fun s hs => h s (List.mem_cons_of_mem _ hs)]

theorem count_eq_zero {line : Line} (h : Every Token.DeclaresNone line) :
    line.count (.declare n) = 0 :=
  List.count_eq_zero.mpr fun hmem => h _ hmem

/-- A declaration is counted where its token stands. -/
theorem Stmt.count_tokens {s : Stmt} (hs : s.isLine = true) :
    s.tokens.count (.declare n) = Stmt.declarations n s := by
  have hline : ∀ {line : Line}, Every Token.DeclaresNone line →
      Every Token.DeclaresNone (line ++ [.text ";"]) :=
    fun h => every_append h (every_of_isPlain rfl)
  cases s with
  | ifElse | loop | indented => cases hs
  | declare t value =>
    have hvalue := count_eq_zero (n := n) (hline value.declaresNone)
    simp [Stmt.tokens, Stmt.declarations, List.count_cons, hvalue]
  | declareNil t => simp [Stmt.tokens, Stmt.declarations, List.count_cons]
  | eval value => exact count_eq_zero (hline value.declaresNone)
  | assign t v => exact count_eq_zero (every_cons trivial (every_plain rfl (hline v.declaresNone)))
  | store place v =>
    exact count_eq_zero (every_append place.declaresNone (every_plain rfl (hline v.declaresNone)))
  | ret v => exact count_eq_zero (every_plain rfl (hline v.declaresNone))
  | defineMethod name f => exact count_eq_zero (every_cons trivial (every_of_isPlain rfl))
  | setVisibility v => cases v <;> exact count_eq_zero (every_of_isPlain rfl)
  | verbatim line => exact count_eq_zero (every_cons trivial every_nil)
  | checkArgs | breakLoop | continueLoop | exit => exact count_eq_zero (every_of_isPlain rfl)

theorem count_ifLine (k : Nat) (c : Operand) : (ifLine k c).count (.declare n) = 0 :=
  count_eq_zero (every_plain rfl (every_plain rfl (every_append c.declaresNone
    (every_of_isPlain rfl))))

theorem count_testLine (k : Nat) (c : Operand) : (testLine k c).count (.declare n) = 0 :=
  count_eq_zero (every_plain rfl (every_plain rfl (every_append c.declaresNone
    (every_of_isPlain rfl))))

mutual

/-- The declarations of a statement stand in its lines. -/
theorem Stmt.count_layout (k : Nat) (s : Stmt) :
    (Stmt.layout k s).flatten.count (.declare n) = Stmt.declarations n s := by
  by_cases hs : s.isLine = true
  · rw [Stmt.layout_of_isLine hs, List.flatten_singleton, ← Stmt.count_tokens hs]
    simp
  · cases s with
    | ifElse c yes no =>
      simp [Stmt.layout, Stmt.declarations, count_ifLine, elseLine, closeLine,
        Stmt.count_layouts (k + 1) yes, Stmt.count_layouts (k + 1) no]
    | loop test c body =>
      simp [Stmt.layout, Stmt.declarations, count_testLine, loopLine, closeLine,
        Stmt.count_layouts (k + 1) test, Stmt.count_layouts (k + 1) body]
    | indented lines => simp [Stmt.layout, Stmt.declarations, List.count_eq_zero]
    | _ => exact absurd rfl hs

/-- The declarations of statements stand in their lines. -/
theorem Stmt.count_layouts (k : Nat) (stmts : List Stmt) :
    (Stmt.layouts k stmts).flatten.count (.declare n) = Stmt.declarationsIn n stmts := by
  cases stmts with
  | nil => simp [Stmt.layouts, Stmt.declarationsIn]
  | cons s rest =>
    rw [Stmt.layouts, List.flatten_append, List.count_append, Stmt.count_layout k s,
      Stmt.count_layouts k rest, Stmt.declarationsIn]

end

/-- A temp is declared in the text as often as in the statements. -/
theorem Function.count_layout (f : Function) :
    f.layout.flatten.count (.declare n) = Stmt.declarationsIn n f.body := by
  have hhead : f.head.count (.declare n) = 0 := count_eq_zero f.every_head
  have hsetup : (f.setup.map (.text (pad 1) :: ·)).flatten.count (.declare n) = 0 := by
    refine count_eq_zero fun token htoken => ?_
    obtain ⟨line, hline, hmem⟩ := List.mem_flatten.mp htoken
    obtain ⟨inner, hinner, rfl⟩ := List.mem_map.mp hline
    exact every_plain rfl (f.every_setup inner hinner) token hmem
  simp [Function.layout, hhead, hsetup, Stmt.count_layouts]

end

/-! ## Every temp is declared once -/

namespace Draft

/-- How often the functions of a unit declare the temp. -/
def declarations (n : Nat) (d : Draft) : Nat :=
  Stmt.declarationsIn n (d.functions.flatMap Function.body)

/-- How often the temp may still be taken. -/
def unused (n : Nat) (d : Draft) : Nat := if d.nextTemp ≤ n then 1 else 0

end Draft

/-- How often a temp is declared so far, or will be. -/
def budget (n : Nat) (r : Region) (d : Draft) : Nat :=
  Stmt.declarationsIn n r.statements + d.declarations n + d.unused n

section

variable {n : Nat} {r r' inner : Region} {d d' : Draft} {v : Operand} {below : List Operand}

/-- Numbers that were taken stay taken. -/
theorem Draft.unused_le (h : d.nextTemp ≤ d'.nextTemp) : d'.unused n ≤ d.unused n := by
  unfold Draft.unused
  split <;> split <;> omega

/-- An instruction without a block adds no function. -/
theorem Draft.declarations_after (d : Draft) (op : Op) :
    (d.after op).declarations n = d.declarations n := by
  unfold Draft.declarations
  rw [Draft.functions_after]

/-- A temp that is taken is declared instead. -/
theorem count_range (k m : Nat) :
    ((List.range m).map (k + ·)).count n + (if k + m ≤ n then 1 else 0) =
      if k ≤ n then 1 else 0 := by
  induction m with
  | zero => simp
  | succ m ih =>
    rw [List.range_succ, List.map_append, List.count_append, ← ih]
    simp only [List.map_cons, List.map_nil, List.count_singleton, beq_iff_eq]
    split <;> split <;> split <;> omega

/-- A list of declarations declares each temp as often as it is listed. -/
theorem declarationsIn_declareNil (temps : List Nat) :
    Stmt.declarationsIn n (temps.map .declareNil) = temps.count n := by
  induction temps with
  | nil => simp [Stmt.declarationsIn]
  | cons m rest ih =>
    simp [Stmt.declarationsIn, Stmt.declarations, ih, List.count_cons, Nat.add_comm]

theorem declarationsIn_emit (s : Stmt) : Stmt.declarationsIn n (r.emit s).statements =
    Stmt.declarationsIn n r.statements + Stmt.declarations n s := by
  rw [Region.statements_emit, declarationsIn_append, declarationsIn_singleton]

/-- Assignments at the end of an arm declare nothing. -/
theorem declarationsIn_assignTop (temps : List Nat) (arm : Region) :
    Stmt.declarationsIn n (assignTop temps arm).statements =
      Stmt.declarationsIn n arm.statements := by
  rw [statements_assignTop, declarationsIn_append]
  refine congrArg (_ + ·) (declarationsIn_eq_zero fun s hs => ?_)
  obtain ⟨⟨t, v⟩, -, rfl⟩ := List.mem_map.mp hs
  simp [Stmt.declarations]

/-- A region that starts with operands of another one. -/
theorem budget_fork : budget n { stack := below } d = d.declarations n + d.unused n := by
  simp [budget, Region.statements, Stmt.declarationsIn]

theorem budget_addNumber : budget n r d.addNumber = budget n r d := rfl

/-- A merge declares the temps that it takes, and none of those before. -/
theorem budget_joined (yes no : Region) :
    budget n ({ r with stack := below }.joined v d.nextTemp yes no)
        (d.addTemps (live below yes no)) =
      Stmt.declarationsIn n r.statements + Stmt.declarationsIn n yes.statements +
        Stmt.declarationsIn n no.statements + d.declarations n + d.unused n := by
  have hcode : Stmt.declarationsIn n
      ({ r with stack := below }.joined v d.nextTemp yes no).statements =
        Stmt.declarationsIn n r.statements + (mergeTemps d.nextTemp below yes no).count n +
          (Stmt.declarationsIn n yes.statements + Stmt.declarationsIn n no.statements) := by
    have hstatements : ({ r with stack := below }.joined v d.nextTemp yes no).statements =
        r.statements ++ (mergeTemps d.nextTemp below yes no).map .declareNil ++
          [.ifElse v (assignTop (mergeTemps d.nextTemp below yes no) yes).statements
            (assignTop (mergeTemps d.nextTemp below yes no) no).statements] := by
      simp [Region.joined, Region.statements]
    rw [hstatements, declarationsIn_append, declarationsIn_append, declarationsIn_declareNil,
      declarationsIn_singleton, Stmt.declarations, declarationsIn_assignTop,
      declarationsIn_assignTop]
  have htemps := count_range (n := n) d.nextTemp (live below yes no)
  rw [budget, hcode]
  show _ + d.declarations n + (if d.nextTemp + live below yes no ≤ n then 1 else 0) =
    _ + d.declarations n + (if d.nextTemp ≤ n then 1 else 0)
  unfold mergeTemps
  omega

theorem budget_loop (test body : Region) :
    budget n (r.emit (.loop test.statements v body.statements)) d =
      Stmt.declarationsIn n r.statements + Stmt.declarationsIn n test.statements +
        Stmt.declarationsIn n body.statements + d.declarations n + d.unused n := by
  rw [budget, declarationsIn_emit, Stmt.declarations]
  omega

/-- A value that is memoized uses up the number that it declares. -/
theorem budget_memoize (r : Region) (d : Draft) (below : List Operand) (value : Rhs) :
    budget n ({ r with stack := below }.memoize d.nextTemp value) (d.addTemps 1) =
      budget n r d := by
  have hcode : Stmt.declarationsIn n
      ({ r with stack := below }.memoize d.nextTemp value).statements =
        Stmt.declarationsIn n r.statements + if d.nextTemp = n then 1 else 0 := by
    have hemit := declarationsIn_emit (n := n) (r := { r with stack := below })
      (.declare d.nextTemp value)
    rw [Stmt.declarations] at hemit
    exact hemit
  rw [budget, hcode]
  show _ + d.declarations n + (if d.nextTemp + 1 ≤ n then 1 else 0) =
    _ + d.declarations n + (if d.nextTemp ≤ n then 1 else 0)
  split <;> split <;> split <;> omega

/-- The statements of a body go from its region to its function. -/
theorem Draft.declarations_addFunction (name : FunctionName) (s : ScopeId) (owned : Scope) :
    (d.addFunction (inner.toFunction name s owned v)).declarations n =
      d.declarations n + Stmt.declarationsIn n inner.statements := by
  show Stmt.declarationsIn n ((d.functions ++ [inner.toFunction name s owned v]).flatMap _) = _
  rw [List.flatMap_append, declarationsIn_append, List.flatMap_singleton]
  show _ + Stmt.declarationsIn n (inner.emit (.ret v)).statements = _
  rw [declarationsIn_emit, Stmt.declarations]
  rfl

theorem budget_method (name : String) (ref : Ref) (f : FunctionName) (s : ScopeId)
    (owned : Scope) : budget n ((r.emit (.defineMethod ref f)).push (.literal (.sym ref)))
        ((d.addSymbol name).addFunction (inner.toFunction f s owned v)) =
      Stmt.declarationsIn n r.statements + Stmt.declarationsIn n inner.statements +
        d.declarations n + d.unused n := by
  show Stmt.declarationsIn n (r.emit (.defineMethod ref f)).statements + _ + d.unused n = _
  rw [declarationsIn_emit, Draft.declarations_addFunction, Stmt.declarations]
  show _ + 0 + (d.declarations n + _) + _ = _
  omega

theorem budget_block (value : Rhs) (f : FunctionName) (s : ScopeId) (owned : Scope) :
    budget n (r.memoize d.nextTemp value)
        ((d.addFunction (inner.toFunction f s owned v)).addTemps 1) =
      Stmt.declarationsIn n r.statements + Stmt.declarationsIn n inner.statements +
        d.declarations n + d.unused n := by
  refine Eq.trans (budget_memoize r (d.addFunction (inner.toFunction f s owned v)) r.stack value) ?_
  rw [budget, Draft.declarations_addFunction]
  show _ + d.unused n = _
  omega

end

section

variable {t : ScopeTree} {link : Linking} {i : Instruction} {seg : Segment} {n : Nat}
  {r r' : Region} {d d' : Draft}

theorem Computed.nextTemp_after {stack below : List Operand} {value : Rhs}
    (h : Computed t link d i stack value below) : (d.after i.op).nextTemp = d.nextTemp + 1 := by
  cases h with
  | getLocal hi | getGlobal hi | send hi | yield hi =>
    rw [hi]
    rfl

theorem Executed.declarations {stack below : List Operand} {s : Stmt}
    (h : Executed t link d i stack s below) : Stmt.declarations n s = 0 := by
  cases h <;> simp [Stmt.declarations]

/-- Throwing the last operand away turns the declaration of the temp into a bare computation. -/
def Region.Drops (r : Region) (n : Nat) : Prop :=
  ∃ value rest r', r.code = .declare n value :: rest ∧ r.discard 0 = .ok r' ∧
    r'.code = .eval value :: rest

/-- A declaration that is dropped is gone for good. -/
theorem Region.Drops.budget (h : r.Drops n) (hr : r.discard 0 = .ok r') (d : Draft) :
    CUnit.budget n r' d + 1 = CUnit.budget n r d := by
  obtain ⟨value, rest, r₁, hold, hr₁, hnew⟩ := h
  obtain rfl : r₁ = r' := Except.ok.inj (hr₁.symm.trans hr)
  unfold CUnit.budget Region.statements
  rw [hold, hnew, List.reverse_cons, List.reverse_cons, declarationsIn_append,
    declarationsIn_append, declarationsIn_singleton, declarationsIn_singleton, Stmt.declarations,
    Stmt.declarations, if_pos rfl]
  omega

/-- Discarding an operand declares nothing. -/
theorem Region.declarationsIn_discard (h : ∀ index, r.discard index = .ok r') :
    Stmt.declarationsIn n r'.statements ≤ Stmt.declarationsIn n r.statements := by
  obtain ⟨v, below, hs⟩ := List.exists_cons_of_ne_nil (Region.ne_nil_of_discard h)
  obtain ⟨r₁, hr₁, -, hcases⟩ := Region.exists_discard hs
  obtain rfl : r₁ = r' := Except.ok.inj ((hr₁ 0).symm.trans (h 0))
  unfold Region.statements
  rcases hcases with heq | ⟨m, value, rest, -, -, hold, hnew⟩
  · exact Nat.le_of_eq (by rw [heq])
  · rw [hold, hnew, List.reverse_cons, List.reverse_cons, declarationsIn_append,
      declarationsIn_append]
    refine Nat.add_le_add_left ?_ _
    rw [declarationsIn_singleton, Stmt.declarations]
    exact Nat.zero_le _

/-- An instruction that opens no block declares nothing twice. -/
theorem Acts.budget_le (h : Acts t link d i r r') : budget n r' (d.after i.op) ≤ budget n r d := by
  have hunused : (d.after i.op).unused n ≤ d.unused n :=
    Draft.unused_le (Draft.grows_after d i.op).temps
  have hfunctions := Draft.declarations_after (n := n) d i.op
  cases h with
  | constant | dup =>
    show Stmt.declarationsIn n r.statements + _ + _ ≤ _
    rw [hfunctions]
    exact Nat.add_le_add_left hunused _
  | pop _ hdiscard =>
    have hcode := Region.declarationsIn_discard (n := n) hdiscard
    unfold budget
    omega
  | @compute value below hvalue =>
    refine Nat.le_of_eq (Eq.trans ?_ (budget_memoize r d below value))
    unfold budget Draft.unused
    rw [hfunctions, hvalue.nextTemp_after]
    rfl
  | @execute s below hs =>
    have hcode : Stmt.declarationsIn n ({ r with stack := below }.emit s).statements =
        Stmt.declarationsIn n r.statements := by
      rw [declarationsIn_emit, hs.declarations]
      rfl
    unfold budget
    omega

/-- **Nothing is declared twice.** -/
theorem Generates.budget_le (h : Generates t link seg r d r' d') :
    budget n r' d' ≤ budget n r d := by
  induction h with
  | nil => exact Nat.le_refl _
  | plain ha _ ih => exact Nat.le_trans ih ha.budget_le
  | cond _ _ _ _ _ _ _ ihy ihn ihr =>
    rw [budget_joined] at ihr
    rw [budget_fork, budget] at ihy ihn
    unfold budget at ihr ⊢
    omega
  | loop _ _ _ _ _ _ _ iht ihb ihr =>
    rw [budget_loop] at ihr
    rw [budget_fork, budget] at iht ihb
    unfold budget at ihr ⊢
    omega
  | method _ _ _ _ _ _ _ _ ihb ihr =>
    rw [budget_method] at ihr
    rw [budget_addNumber, budget_fork, budget] at ihb
    unfold budget at ihr ⊢
    omega
  | block _ _ _ _ _ _ _ ihb ihr =>
    rw [budget_block] at ihr
    rw [budget_addNumber, budget_fork, budget] at ihb
    unfold budget at ihr ⊢
    omega

/-! ## Lost declarations -/

theorem Acts.step (h : Acts t .making d i r r') (run : Segment → Region → Gen Region)
    (after : Segment) : step t run i after r d = .ok ((r', after), d.after i.op) := by
  obtain ⟨op, scope⟩ := i
  cases h with
  | constant ha =>
    cases ha with
    | string href | symbol href =>
      subst href
      rfl
    | _ => rfl
  | pop hi hdiscard =>
    obtain rfl : op = .pop := hi
    exact step_pop hdiscard
  | dup hi hs =>
    obtain rfl : op = .dup := hi
    exact step_dup hs
  | compute hvalue =>
    cases hvalue with
    | @getLocal name _ hi hfound =>
      obtain rfl : op = .getLocal name := hi
      exact step_getLocal hfound
    | @getGlobal name _ hi href =>
      obtain rfl : op = .getGlobal name := hi
      subst href
      rfl
    | @send message argc _ target block _ _ hi hargs hs href =>
      obtain rfl : op = .send message argc target.isSome block.isSome := hi
      subst href
      exact step_send hargs hs message
    | @yield argc _ _ hi hargs hs =>
      obtain rfl : op = .yield argc := hi
      exact step_yield hargs hs
  | execute hs =>
    cases hs with
    | @setLocal name localOnly _ _ _ hi hs hfound =>
      obtain rfl : op = .setLocal name localOnly := hi
      exact step_setLocal hs hfound
    | @setGlobal name _ _ _ hi hs href =>
      obtain rfl : op = .setGlobal name := hi
      subst href
      exact step_setGlobal hs name
    | leave hi hs =>
      rcases hi with hi | hi
      · obtain rfl : op = .ret := hi
        exact step_ret hs
      · obtain rfl : op = .next true := hi
        exact step_finish hs
    | checkArgs hi | breakOut hi | nextRound hi | halt hi | setVisibility hi =>
      obtain rfl := (hi : op = _)
      rfl

theorem generateWatched_cons {watch : Watch} {k start : Nat} {rest : List Instruction}
    {after : Segment} {r₁ : Region} {d₁ : Draft} (hwatch : watch start i r d = .ok ((), d))
    (hstep : CUnit.step t (generateWatched watch t k) i ⟨start + 1, rest⟩ r d =
      .ok ((r₁, after), d₁)) :
    generateWatched watch t (k + 1) ⟨start, i :: rest⟩ r d =
      generateWatched watch t k after r₁ d₁ :=
  (gen_bind hwatch).trans (gen_bind hstep)

theorem Acts.discard (h : Acts t link d i r r') (hi : i.op = .pop) :
    r.discard 0 = .ok r' ∧ d.after i.op = d := by
  refine ⟨?_, by rw [hi]; rfl⟩
  cases h with
  | constant ha =>
    rw [hi] at ha
    cases ha
  | pop _ hdiscard => exact hdiscard 0
  | dup hdup _ => cases hi.symm.trans hdup
  | compute hvalue =>
    cases hvalue with
    | getLocal hop | getGlobal hop | send hop | yield hop => cases hi.symm.trans hop
  | execute hs =>
    cases hs with
    | leave hop => rcases hop with hop | hop <;> cases hi.symm.trans hop
    | setLocal hop | setGlobal hop | checkArgs hop | breakOut hop | nextRound hop | halt hop
    | setVisibility hop => cases hi.symm.trans hop

/-- A watch that does nothing unless a temp is dropped that was not lost never does anything. What
is declared outside of the region counts as well: with it nothing is declared twice, and what is
declared nowhere in the end is lost. -/
theorem Generates.watched (h : Generates t .making seg r d r' d') {watch : Watch}
    {lost : Nat → Prop}
    (hquiet : ∀ index i r d, (∀ n, i.op = .pop → r.Drops n → lost n) →
      watch index i r d = .ok ((), d))
    (outer : Nat → Nat) (honce : ∀ n, outer n + budget n r d ≤ 1)
    (hlost : ∀ n, outer n + budget n r' d' = 0 → lost n) :
    ∀ k, seg.code.length ≤ k → generateWatched watch t k seg r d = .ok (r', d') := by
  have hopens : ∀ {index : Nat} {i : Instruction} {r : Region} {d : Draft}, i.op ≠ .pop →
      watch index i r d = .ok ((), d) := fun hne => hquiet _ _ _ _ fun _ hpop => absurd hpop hne
  induction h generalizing outer with
  | nil =>
    intro k _
    cases k <;> rfl
  | @plain start i rest r r₁ r' d d' ha hr ih =>
    intro k hk
    obtain ⟨k, rfl⟩ : ∃ m, k = m + 1 := ⟨k - 1, by rw [List.length_cons] at hk; omega⟩
    have hle : ∀ n, budget n r₁ (d.after i.op) ≤ budget n r d := fun n => ha.budget_le
    rw [generateWatched_cons (hquiet _ _ _ _ fun n hpop hdrops => hlost n ?_) (ha.step _ _)]
    · exact ih outer (fun n => Nat.le_trans (Nat.add_le_add_left (hle n) _) (honce n)) hlost k
        (Nat.le_of_succ_le_succ hk)
    · -- the lost declaration lowers the budget from one to zero, and nothing raises it again
      obtain ⟨hdiscard, hafter⟩ := ha.discard hpop
      have hdropped := hdrops.budget hdiscard d
      have hend : budget n r' d' ≤ budget n r₁ d := hafter ▸ hr.budget_le
      have := honce n
      omega
  | @cond start i rest yes mid no after r yesArm noArm r' d d₁ d₂ d' v below hi hcut hcut' hs hy hn
      hr ihy ihn ihr =>
    intro k hk
    rw [List.length_cons] at hk
    obtain ⟨k, rfl⟩ : ∃ m, k = m + 1 := ⟨k - 1, by omega⟩
    have hmid := Segment.length_of_takeBlock hcut
    have hafter := Segment.length_of_takeBlock hcut'
    have hyle := fun n => hy.budget_le (n := n)
    have hnle := fun n => hn.budget_le (n := n)
    have hrle := fun n => hr.budget_le (n := n)
    simp only [budget_fork, budget_joined] at hyle hnle hrle ihy ihn ihr
    simp only [budget] at honce hlost hyle hnle hrle ihy ihn ihr
    -- inside an arm, what stands before it is declared outside
    have hyes := ihy (fun n => outer n + Stmt.declarationsIn n r.statements)
      (fun n => by have := honce n; omega)
      (fun n hzero => hlost n (by have := hnle n; have := hrle n; omega)) k (by omega)
    have hno := ihn (fun n => outer n + Stmt.declarationsIn n r.statements +
        Stmt.declarationsIn n yesArm.statements)
      (fun n => by have := honce n; have := hyle n; omega)
      (fun n hzero => hlost n (by have := hrle n; omega)) k (by omega)
    rw [generateWatched_cons (hopens (by rw [hi]; nofun)) (step_cond hi hs hcut hcut' hyes hno)]
    exact ihr outer (fun n => by have := honce n; have := hyle n; have := hnle n; omega) hlost k
      (by omega)
  | @loop start i rest test mid body after r testPart bodyPart r' d d₁ d₂ d' v below hi hcut hcut'
      ht hs hb hr iht ihb ihr =>
    intro k hk
    rw [List.length_cons] at hk
    obtain ⟨k, rfl⟩ : ∃ m, k = m + 1 := ⟨k - 1, by omega⟩
    have hmid := Segment.length_of_takeBlock hcut
    have hafter := Segment.length_of_takeBlock hcut'
    have htle := fun n => ht.budget_le (n := n)
    have hble := fun n => hb.budget_le (n := n)
    have hrle := fun n => hr.budget_le (n := n)
    simp only [budget_fork, budget_loop] at htle hble hrle iht ihb ihr
    simp only [budget] at honce hlost htle hble hrle iht ihb ihr
    have htest := iht (fun n => outer n + Stmt.declarationsIn n r.statements)
      (fun n => by have := honce n; omega)
      (fun n hzero => hlost n (by have := hble n; have := hrle n; omega)) k (by omega)
    have hbody := ihb (fun n => outer n + Stmt.declarationsIn n r.statements +
        Stmt.declarationsIn n testPart.statements)
      (fun n => by have := honce n; have := htle n; omega)
      (fun n hzero => hlost n (by have := hrle n; omega)) k (by omega)
    rw [generateWatched_cons (hopens (by rw [hi]; nofun)) (step_loop hi hcut hcut' htest hs hbody)]
    exact ihr outer (fun n => by have := honce n; have := htle n; have := hble n; omega) hlost k
      (by omega)
  | @method start i rest body after r inner r' d d₁ d' v below owned name s ref hi hcut hb hs hget
      hname hf hr ihb ihr =>
    intro k hk
    rw [List.length_cons] at hk
    obtain ⟨k, rfl⟩ : ∃ m, k = m + 1 := ⟨k - 1, by omega⟩
    have hafter := Segment.length_of_takeBlock hcut
    have hble := fun n => hb.budget_le (n := n)
    have hrle := fun n => hr.budget_le (n := n)
    simp only [budget_addNumber, budget_fork, budget_method] at hble hrle ihb ihr
    simp only [budget] at honce hlost hble hrle ihb ihr
    have hbody := ihb (fun n => outer n + Stmt.declarationsIn n r.statements)
      (fun n => by have := honce n; omega)
      (fun n hzero => hlost n (by have := hrle n; omega)) k (by omega)
    subst hname
    rw [generateWatched_cons (hopens (by rw [hi]; nofun)) (step_method hi hcut hbody hs hget)]
    exact ihr outer (fun n => by have := honce n; have := hble n; omega) hlost k (by omega)
  | @block start i rest body after r inner r' d d₁ d' v below owned s hi hcut hb hs hget hf hr ihb
      ihr =>
    intro k hk
    rw [List.length_cons] at hk
    obtain ⟨k, rfl⟩ : ∃ m, k = m + 1 := ⟨k - 1, by omega⟩
    have hafter := Segment.length_of_takeBlock hcut
    have hble := fun n => hb.budget_le (n := n)
    have hrle := fun n => hr.budget_le (n := n)
    simp only [budget_addNumber, budget_fork, budget_block] at hble hrle ihb ihr
    simp only [budget] at honce hlost hble hrle ihb ihr
    have hbody := ihb (fun n => outer n + Stmt.declarationsIn n r.statements)
      (fun n => by have := honce n; omega)
      (fun n hzero => hlost n (by have := hrle n; omega)) k (by omega)
    rw [generateWatched_cons (hopens (by rw [hi]; nofun)) (step_block hi hcut hbody hs hget)]
    exact ihr outer (fun n => by have := honce n; have := hble n; omega) hlost k (by omega)

end

/-! ## Units -/

theorem Function.scoped_layout {f : Function} (h : f.DeclaresUses) : Scoped [] f.layout := by
  have hshape : f.layout = (f.head :: f.setup.map (.text (pad 1) :: ·)) ++ Stmt.layouts 1 f.body ++
      [[.closing]] := by
    simp [Function.layout]
  rw [hshape]
  have hheld : ∀ before, Held before [] := fun _ _ hn => absurd hn List.not_mem_nil
  refine scoped_append.mpr ⟨scoped_append.mpr ⟨scoped_of_not_use ?_, (h 1 _ (hheld _)).1⟩,
    scoped_of_not_use (by simp)⟩
  -- what stands before the body uses no temp at all
  have hbefore : ∀ line ∈ f.head :: f.setup.map (.text (pad 1) :: ·),
      Every (Token.UsesOf []) line :=
    List.forall_mem_cons.mpr ⟨f.every_head, List.forall_mem_map.mpr fun line hline =>
      every_plain rfl (f.every_setup line hline)⟩
  exact fun line hline n hn => absurd (hbefore line hline _ hn) List.not_mem_nil

/-- How often the temp is declared in the text of a unit. -/
def declarationsOf (u : CUnit) (n : Nat) : Nat :=
  (u.allFunctions.flatMap Function.layout).flatten.count (.declare n)

/-- The declarations of a unit are those in its functions and in its top level. -/
theorem declarationsOf_eq (u : CUnit) (n : Nat) : u.declarationsOf n =
    Stmt.declarationsIn n (u.functions.flatMap Function.body) +
      Stmt.declarationsIn n u.main.body := by
  have hbodies : ∀ functions : List Function,
      (functions.flatMap Function.layout).flatten.count (.declare n) =
        Stmt.declarationsIn n (functions.flatMap Function.body) := by
    intro functions
    induction functions with
    | nil => simp [Stmt.declarationsIn]
    | cons f rest ih =>
      rw [List.flatMap_cons, List.flatMap_cons, List.flatten_append, List.count_append,
        f.count_layout, ih, declarationsIn_append]
  rw [declarationsOf, hbodies, allFunctions, List.flatMap_append, declarationsIn_append,
    List.flatMap_singleton]

/-- A temp that is used in the text of a unit is declared there. -/
theorem declarationsOf_pos {u : CUnit} {f : Function} (hf : f ∈ u.allFunctions)
    {before after : List Line} {line start : Line} {n : Nat}
    (hlayout : f.layout = before ++ line :: after) (h : DeclaredIn before start n) :
    0 < u.declarationsOf n := by
  obtain ⟨earlier, a, b, between, rfl, -⟩ := h
  refine List.count_pos_iff.mpr (List.mem_flatten.mpr ⟨a ++ .declare n :: b, ?_, by simp⟩)
  refine List.mem_flatMap.mpr ⟨f, hf, ?_⟩
  rw [hlayout]
  simp

/-- **Temps are used where they are declared.** As every function is laid out, a temp that is used
has been declared in an earlier line, whose block is still open, and that is its only declaration in
the whole unit; and C reads functions as they are laid out, unless a name of the program ends the
comment that repeats it. When a discarded operand loses its declaration, the temp is used nowhere: a
watch that does nothing unless a used temp is dropped never does anything. -/
theorem generate_temps_scoped {settings : Settings} {p : Program} {u : CUnit}
    (h : generate settings p = .ok u) :
    (∀ f ∈ u.allFunctions, f.layout.map Line.text = f.lines ∧
      ∀ before line after, f.layout = before ++ line :: after → (∀ s, .raw s ∉ line) ∧
        ∀ start n stop, line = start ++ .use n :: stop →
          DeclaredIn before start n ∧ u.declarationsOf n = 1) ∧
    (p.KeepsComments → ∀ f ∈ u.allFunctions, f.ReadAsLaidOut) ∧
    ∀ watch : Watch, (∀ index i r d, (∀ n, i.op = .pop → r.Drops n →
        ∀ f ∈ u.allFunctions, ∀ line ∈ f.layout, .use n ∉ line) → watch index i r d = .ok ((), d)) →
      unitWatched watch settings p = .ok u := by
  obtain ⟨r, d, owned, hgenerates, hget, hunit⟩ := exists_generates h
  obtain ⟨hflows, hscoped⟩ := hgenerates.flows flows_nil nofun
  have hbudget : ∀ n, budget n r d ≤ 1 := fun n => hgenerates.budget_le
  have hcount : ∀ n, u.declarationsOf n ≤ budget n r d := by
    intro n
    have hmain : Stmt.declarationsIn n u.main.body = Stmt.declarationsIn n r.statements := by
      rw [hunit]
      exact (declarationsIn_emit _).trans (Nat.add_zero _)
    rw [declarationsOf_eq, hmain, hunit, budget]
    show d.declarations n + _ ≤ _
    omega
  have hbodies : ∀ f ∈ u.allFunctions, Scoped [] f.layout := by
    intro f hf
    rw [hunit] at hf
    rcases List.mem_append.mp hf with hf | hf
    · exact Function.scoped_layout (hscoped f hf)
    · rw [List.mem_singleton.mp hf]
      have hresult := Region.every_result (r := r) fun v hv => v.usesOf hv
      exact Function.scoped_layout (declaresUses_toFunction hflows hresult _ _ _)
  have huses : ∀ f ∈ u.allFunctions, ∀ before line after, f.layout = before ++ line :: after →
      ∀ start n stop, line = start ++ .use n :: stop → DeclaredIn before start n := by
    intro f hf before line after hlayout
    have hf := hbodies f hf
    rw [hlayout] at hf
    exact (scoped_append.mp hf).2.1
  refine ⟨fun f hf => ⟨f.text_layout, fun before line after hlayout => ⟨?_, ?_⟩⟩,
    readAsLaidOut_of_generate h, ?_⟩
  · exact ne_raw_of_generate h f hf line (by simp [hlayout])
  · intro start n stop hline
    have hdeclared := huses f hf before line after hlayout start n stop hline
    have hpos := declarationsOf_pos hf hlayout hdeclared
    have := hcount n
    have := hbudget n
    exact ⟨hdeclared, by omega⟩
  · intro watch hquiet
    have hrun : generateWatched watch p.scopes p.code.length p.segment {} {} = .ok (r, d) := by
      refine hgenerates.watched hquiet (fun _ => 0) (fun n => ?_) (fun n hzero => ?_) _
        (Nat.le_refl _)
      · exact Nat.le_of_eq rfl
      · intro f hf line hline huse
        obtain ⟨before, after, hlayout⟩ := List.append_of_mem hline
        obtain ⟨start, stop, htokens⟩ := List.append_of_mem huse
        have hpos := declarationsOf_pos hf hlayout
          (huses f hf before line after hlayout start n stop htokens)
        have := hcount n
        omega
    rw [unitWatched, unitBy, hunit]
    simp only [StateT.run, function_main hrun hget]
    rfl

/-- Temp 1 is what the arms of the conditional are merged into. It is used, so it is never
dropped. -/
theorem pickAndLoop_temps_scoped : ∃ (u : CUnit) (f : Function) (before after : List Line)
    (start stop : Line), generate {} pickAndLoop = .ok u ∧ f ∈ u.allFunctions ∧
      f.layout = before ++ (start ++ .use 1 :: stop) :: after ∧ DeclaredIn before start 1 ∧
      u.declarationsOf 1 = 1 ∧ pickAndLoop.KeepsComments ∧ f.ReadAsLaidOut ∧
      ∀ watch : Watch, (∀ index i r d, ¬ (i.op = .pop ∧ r.Drops 1) →
        watch index i r d = .ok ((), d)) → unitWatched watch {} pickAndLoop = .ok u := by
  have hkept : pickAndLoop.KeepsComments := by decide +kernel
  have hused : (generate {} pickAndLoop).map (fun u =>
      decide (∃ f ∈ u.allFunctions, ∃ line ∈ f.layout, .use 1 ∈ line)) = .ok true := by
    decide +kernel
  cases hu : generate {} pickAndLoop with
  | error e =>
    rw [hu] at hused
    cases hused
  | ok u =>
    rw [hu] at hused
    obtain ⟨f, hf, line, hline, huse⟩ := of_decide_eq_true (Except.ok.inj hused)
    obtain ⟨before, after, hlayout⟩ := List.append_of_mem hline
    obtain ⟨start, stop, rfl⟩ := List.append_of_mem huse
    obtain ⟨hscoped, hread, hwatched⟩ := generate_temps_scoped hu
    obtain ⟨-, huses⟩ := (hscoped f hf).2 before _ after hlayout
    obtain ⟨hdeclared, honce⟩ := huses start 1 stop rfl
    refine ⟨u, f, before, after, start, stop, rfl, hf, hlayout, hdeclared, honce, hkept,
      hread hkept f hf, ?_⟩
    intro watch hquiet
    refine hwatched watch fun index i r d hlost => hquiet index i r d fun ⟨hpop, hdrops⟩ => ?_
    exact hlost 1 hpop hdrops f hf _ hline huse

/-- The token that a word is, as far as blocks are concerned. -/
def Token.ofBrace (word : String) : Token :=
  if word = "\x7b" then .opening else if word = "\x7d" then .closing else .text word

/-- Two messages whose names end their comments: the first opens a block, and the second closes it.
Between them a temp is declared, which is used behind them. -/
def blockInNames : Program where
  code := [
    ⟨.send "*\\\n/, 0, NULL, rt_nil()); \x7b rt_send(self, 0, 0 /*" 0 false false, .root⟩,
    ⟨.pop, .root⟩,
    ⟨.getGlobal "$x", .root⟩,
    ⟨.send "*\\\n/, 0, NULL, rt_nil()); \x7d rt_send(self, 0, 0 /*" 0 false false, .root⟩,
    ⟨.pop, .root⟩,
    ⟨.setGlobal "$y", .root⟩]

/-- **A name can end its comment and close a block.** Both checks accept the program, and its C
declares the temp once, in a block that is closed where the temp is used. -/
theorem blockInNames_unscoped : blockInNames.validate = .ok () ∧
    checkHeights blockInNames.code 0 = .ok () ∧
    ∃ u before between after, generate {} blockInNames = .ok u ∧
      wordsRead (textOf u.main.lines) = before ++ "Value" :: "t1" :: (between ++ "t1" :: after) ∧
      "t1" ∉ before ++ between ++ after ∧ depth? 0 (between.map Token.ofBrace) = none := by
  refine ⟨by decide +kernel, by decide +kernel, ?_⟩
  have hwords : (generate {} blockInNames).map (fun u =>
      let ws := wordsRead (textOf u.main.lines)
      let between := (ws.drop 92).take 46
      decide (ws = ws.take 90 ++ "Value" :: "t1" :: (between ++ "t1" :: ws.drop 139) ∧
        "t1" ∉ ws.take 90 ++ between ++ ws.drop 139 ∧
        depth? 0 (between.map Token.ofBrace) = none)) = .ok true := by
    simp only [Function.wordsRead_text]
    decide +kernel
  cases hu : generate {} blockInNames with
  | error e =>
    rw [hu] at hwords
    cases hwords
  | ok u =>
    rw [hu] at hwords
    exact ⟨u, _, _, _, rfl, of_decide_eq_true (Except.ok.inj hwords)⟩

end StackCode.CUnit
