import StackCode.Proofs.Heights
import StackCode.Proofs.Translation

/-!
# The generator accepts what the check accepts

While a stretch of code becomes C, its operand stack is symbolic. The height check counts the same
operands without naming them, and cuts the same blocks out of the code. Where it succeeds the
generator therefore never lacks an operand or a block: it makes C of the code, or it meets a
variable that no scope declares (`generate_keeps_checked_heights`).

To say that both have one height at every instruction the generator is *watched*: it calls a watch
before every instruction that it makes C of. A watch that does nothing where the heights agree never
does anything.
-/

namespace StackCode.CUnit

/-! ## The watched generator -/

/-- Looks at an instruction before C is made of it: at its index and at the region so far. -/
abbrev Watch := Nat → Instruction → Region → Gen Unit

/-- Makes C of a segment, which has at most `n` instructions, and calls the watch at each of
them. -/
def generateWatched (watch : Watch) (scopes : ScopeTree) : Nat → Segment → Region → Gen Region
  | 0, _, r => return r
  | _ + 1, ⟨_, []⟩, r => return r
  | n + 1, ⟨index, i :: rest⟩, r => do
    watch index i r
    let (r, after) ← step scopes (generateWatched watch scopes n) i ⟨index + 1, rest⟩ r
    generateWatched watch scopes n after r

/-- The unit of a program whose segments become C by `run`. -/
def unitBy (run : Segment → Region → Gen Region) (settings : Settings) (p : Program) :
    Except GenerateError CUnit := do
  let (main, draft) ← (function p.scopes run .main .root p.segment).run {}
  return { maxCallDepth := settings.maxCallDepth, echo := settings.echo,
           symbols := draft.symbols.entries, strings := draft.strings.entries,
           functions := draft.functions, main }

/-- The unit of a program, by the watched generator. -/
def unitWatched (watch : Watch) (settings : Settings) (p : Program) : Except GenerateError CUnit :=
  unitBy (generateWatched watch p.scopes p.code.length) settings p

theorem generate_eq_unitBy (settings : Settings) (p : Program) :
    generate settings p = unitBy (generateWithin p.scopes p.code.length) settings p := rfl

/-- The watched generator is the generator when the watch does nothing. -/
theorem generateWatched_pure (t : ScopeTree) (n : Nat) :
    generateWatched (fun _ _ _ => pure ()) t n = generateWithin t n := by
  induction n with
  | zero => rfl
  | succ n ih =>
    funext ⟨index, code⟩ r
    cases code with
    | nil => rfl
    | cons i rest =>
      simp only [generateWatched, generateWithin, ih]
      rfl

/-- A unit is not changed by being watched. -/
theorem unitWatched_pure (settings : Settings) (p : Program) :
    unitWatched (fun _ _ _ => pure ()) settings p = generate settings p := by
  rw [unitWatched, generateWatched_pure]
  rfl

/-! ## Two ways of making C that agree -/

/-- What making C comes to: a result with `Q`, or a variable that no scope declares. -/
def Outcome {α : Type} (Q : α → Prop) : Except GenerateError (α × Draft) → Prop
  | .ok (a, _) => Q a
  | .error (.unknownVariable _) => True
  | .error _ => False

/-- Both ways of making C come to the same, and it is a result with `Q` or an unknown variable. -/
structure Agrees {α : Type} (x y : Gen α) (Q : α → Prop) (d : Draft) : Prop where
  same : y d = x d
  outcome : Outcome Q (x d)

section

variable {α β : Type} {x y : Gen α} {f g : α → Gen β} {P : α → Prop} {Q : β → Prop} {a : α}
  {d d' : Draft}

theorem gen_bind_error {e : GenerateError} (h : x d = .error e) : (x >>= f) d = .error e := by
  show (x d >>= fun p => f p.1 p.2) = _
  rw [h]
  rfl

theorem agrees_of_ok (h : x d = .ok (a, d')) (ha : P a) : Agrees x x P d :=
  ⟨rfl, by rw [h]; exact ha⟩

theorem agrees_pure (ha : P a) : Agrees (pure a) (pure a) P d := agrees_of_ok rfl ha

/-- What follows an agreed result agrees. -/
theorem Agrees.bind (h : Agrees x y P d) (hf : ∀ a d', P a → Agrees (f a) (g a) Q d') :
    Agrees (x >>= f) (y >>= g) Q d := by
  have hsame := h.same
  have houtcome := h.outcome
  cases hx : x d with
  | ok r =>
    obtain ⟨a, d'⟩ := r
    rw [hx] at hsame houtcome
    obtain ⟨hrest, hout⟩ := hf a d' houtcome
    exact ⟨by rw [gen_bind hsame, gen_bind hx]; exact hrest, by rw [gen_bind hx]; exact hout⟩
  | error e =>
    rw [hx] at hsame houtcome
    refine ⟨by rw [gen_bind_error hsame, gen_bind_error hx], ?_⟩
    rw [gen_bind_error hx]
    cases e with
    | unknownVariable => trivial
    | malformed | missingScope => exact houtcome

/-- What succeeds is done by both. -/
theorem agrees_bind_of_ok (h : x d = .ok (a, d')) (hf : Agrees (f a) (g a) Q d') :
    Agrees (x >>= f) (x >>= g) Q d :=
  ⟨by rw [gen_bind h, gen_bind h]; exact hf.same, by rw [gen_bind h]; exact hf.outcome⟩

end

/-! ## Single instructions -/

section

variable {t : ScopeTree} {run run' : Segment → Region → Gen Region} {i : Instruction}
  {seg after : Segment} {r : Region} {d : Draft} {h : Nat}

/-- The scopes that an instruction names exist, and the number of its arguments does not
overflow. -/
structure Usable (t : ScopeTree) (i : Instruction) : Prop where
  scope : t.contains i.scope = true
  bodyScope : ∀ s, i.op.bodyScope? = some s → t.contains s = true
  args : i.op.argCount.toNat < 2 ^ 63

/-- **An instruction that finds its operands becomes C or names an unknown variable.** -/
theorem agrees_step_plain (ht : t.Sound) (hi : Usable t i) {taken left : Nat}
    (he : i.op.effect? = some (taken, left)) (hh : taken ≤ r.stack.length) :
    Agrees (step t run i seg r) (step t run' i seg r)
      (fun x => x.1.stack.length = r.stack.length - taken + left ∧ x.2 = seg) d := by
  have hargs : ∀ message argc receiver withBlock,
      i.op = .send message argc receiver withBlock → argc.toNat < 2 ^ 63 := by
    intro message argc receiver withBlock hop
    have := hi.args
    rwa [hop] at this
  -- every variable that the instruction names is declared
  by_cases hfound : ∀ name localOnly, i.op.access? = some (name, localOnly) →
      ∃ found, t.resolve? i.scope name localOnly = some (.ok found)
  · obtain ⟨r', d', hstep, hadvances⟩ := exists_step_of_found hargs hfound he r d hh
    obtain ⟨new, hnew, hstack, -⟩ := hadvances.stack
    refine ⟨by rw [hstep, hstep], ?_⟩
    rw [hstep]
    refine ⟨?_, rfl⟩
    rw [hstack, List.length_append, List.length_drop, hnew]
    omega
  · push Not at hfound
    obtain ⟨name, localOnly, haccess, hnone⟩ := hfound
    obtain ⟨answer, hanswer⟩ := ScopeTree.exists_resolve? ht hi.scope name localOnly
    obtain ⟨op, scope⟩ := i
    cases answer with
    | ok found => exact absurd hanswer (hnone found)
    | error e =>
      have hstorage : ∀ d, storage t scope name localOnly d = .error (.unknownVariable e) := by
        intro d
        unfold storage
        rw [hanswer]
        rfl
      cases op with
      | getLocal _ =>
        cases haccess
        have hstep : ∀ run, step t run ⟨.getLocal name, scope⟩ seg r d =
            .error (.unknownVariable e) := fun _ => gen_bind_error (hstorage d)
        exact ⟨by rw [hstep, hstep], by rw [hstep]; trivial⟩
      | setLocal _ _ =>
        cases haccess
        cases he
        obtain ⟨v, below, hs⟩ := exists_top hh
        have hstep : ∀ run, step t run ⟨.setLocal name localOnly, scope⟩ seg r d =
            .error (.unknownVariable e) := fun _ =>
          (gen_bind (lift_ok (Region.pop_of_stack hs _) d)).trans (gen_bind_error (hstorage d))
        exact ⟨by rw [hstep, hstep], by rw [hstep]; trivial⟩
      | _ => cases haccess

/-- A conditional whose branches agree, and leave one height. -/
theorem agrees_step_cond {yes mid no : Segment} {m : Nat} (hi : i.op = .ifTrue)
    (hr : r.stack.length = h + 1) (hcut : seg.takeBlock .orElse none = .ok (yes, mid))
    (hcut' : mid.takeBlock .ending (some .cond) = .ok (no, after))
    (hyes : ∀ (r : Region) (d : Draft), r.stack.length = h →
      Agrees (run yes r) (run' yes r) (fun r' => r'.stack.length = m) d)
    (hno : ∀ (r : Region) (d : Draft), r.stack.length = h →
      Agrees (run no r) (run' no r) (fun r' => r'.stack.length = m) d) :
    Agrees (step t run i seg r) (step t run' i seg r)
      (fun x => x.1.stack.length = m ∧ x.2 = after) d := by
  have hne : 1 ≤ r.stack.length := by omega
  obtain ⟨v, below, hs⟩ := exists_top hne
  have hbelow : below.length = h := by
    rw [hs, List.length_cons] at hr
    omega
  unfold step
  rw [hi]
  dsimp only
  refine agrees_bind_of_ok (lift_ok (Region.pop_of_stack hs _) d) ?_
  refine agrees_bind_of_ok (cut_ok hcut d) (agrees_bind_of_ok (cut_ok hcut' d) ?_)
  refine (hyes { stack := below } d hbelow).bind fun yesArm d₁ hy =>
    (hno { stack := below } d₁ hbelow).bind fun noArm d₂ hn => ?_
  have hlength := { r with stack := below }.length_joined v d₂.nextTemp (hn.trans hy.symm)
  simp only [merge_eq, foldl_declareNil, length_mergeTemps]
  exact ⟨rfl, hlength.trans hy, rfl⟩

/-- A loop whose parts agree. -/
theorem agrees_step_loop {test mid body : Segment} (hi : i.op = .whileTrue)
    (hr : r.stack.length = h) (hcut : seg.takeBlock .loopBody none = .ok (test, mid))
    (hcut' : mid.takeBlock .ending (some .loop) = .ok (body, after))
    (htest : ∀ (r : Region) (d : Draft), r.stack.length = h →
      Agrees (run test r) (run' test r) (fun r' => r'.stack.length = h + 1) d)
    (hbody : ∀ (r : Region) (d : Draft), r.stack.length = h →
      Agrees (run body r) (run' body r) (fun r' => r'.stack.length = h) d) :
    Agrees (step t run i seg r) (step t run' i seg r)
      (fun x => x.1.stack.length = h ∧ x.2 = after) d := by
  unfold step
  rw [hi]
  dsimp only
  refine agrees_bind_of_ok (cut_ok hcut d) (agrees_bind_of_ok (cut_ok hcut' d) ?_)
  refine (htest r.fork d hr).bind fun testPart d₁ ht => ?_
  have hne : 1 ≤ testPart.stack.length := by omega
  obtain ⟨v, below, hs⟩ := exists_top hne
  refine agrees_bind_of_ok (lift_ok (Region.pop_of_stack hs _) d₁) ?_
  exact (hbody r.fork d₁ hr).bind fun bodyPart d₂ _ => agrees_pure ⟨hr, rfl⟩

/-- A body that agrees and leaves a result, or the top level. -/
theorem agrees_function {name : FunctionName} {s : ScopeId} {body : Segment}
    (hs : t.contains s = true) (hname : name = .main ∨ h = 1)
    (hbody : Agrees (run body {}) (run' body {}) (fun r => r.stack.length = h) d) :
    Agrees (function t run name s body) (function t run' name s body) (fun _ => True) d := by
  obtain ⟨owned, hget⟩ := ScopeTree.exists_get? (of_decide_eq_true hs)
  unfold function
  refine hbody.bind fun inner d' hinner => ?_
  cases hstack : inner.stack with
  | cons v below =>
    simp only [hget]
    exact agrees_of_ok rfl trivial
  | nil =>
    rcases hname with rfl | rfl
    · simp only [hget]
      exact agrees_of_ok rfl trivial
    · rw [hstack] at hinner
      cases hinner

theorem agrees_step_method {name : String} {s : ScopeId} {body : Segment}
    (hi : i.op = .defineMethod name s) (hs : t.contains s = true)
    (hcut : seg.takeBlock .ending (some .method) = .ok (body, after))
    (hbody : ∀ d, Agrees (run body {}) (run' body {}) (fun r' => r'.stack.length = 1) d) :
    Agrees (step t run i seg r) (step t run' i seg r)
      (fun x => x.1.stack.length = r.stack.length + 1 ∧ x.2 = after) d := by
  unfold step
  rw [hi]
  dsimp only
  refine agrees_bind_of_ok (cut_ok hcut d) ?_
  refine agrees_bind_of_ok (show freshFunction d = .ok (d.nextFunction, d.addNumber) from rfl) ?_
  exact (agrees_function hs (.inr rfl) (hbody _)).bind fun f d₁ _ => agrees_of_ok rfl ⟨rfl, rfl⟩

theorem agrees_step_block {s : ScopeId} {body : Segment} (hi : i.op = .defineBlock s)
    (hs : t.contains s = true) (hcut : seg.takeBlock .ending (some .block) = .ok (body, after))
    (hbody : ∀ d, Agrees (run body {}) (run' body {}) (fun r' => r'.stack.length = 1) d) :
    Agrees (step t run i seg r) (step t run' i seg r)
      (fun x => x.1.stack.length = r.stack.length + 1 ∧ x.2 = after) d := by
  unfold step
  rw [hi]
  dsimp only
  refine agrees_bind_of_ok (cut_ok hcut d) ?_
  refine agrees_bind_of_ok (show freshFunction d = .ok (d.nextFunction, d.addNumber) from rfl) ?_
  exact (agrees_function hs (.inr rfl) (hbody _)).bind fun f d₁ _ => agrees_of_ok rfl ⟨rfl, rfl⟩

end

/-! ## Code -/

section

variable {t : ScopeTree} {watch : Watch} {record : List (Nat × Nat)}

/-- An instruction, and the code behind it. -/
theorem agrees_cons {n start m last : Nat} {i : Instruction} {rest : List Instruction}
    {after : Segment} {r : Region} {d : Draft} (hwatch : watch start i r d = .ok ((), d))
    (hstep : Agrees (step t (generateWithin t n) i ⟨start + 1, rest⟩ r)
      (step t (generateWatched watch t n) i ⟨start + 1, rest⟩ r)
      (fun x => x.1.stack.length = m ∧ x.2 = after) d)
    (hrest : ∀ (r : Region) (d : Draft), r.stack.length = m →
      Agrees (generateWithin t n after r) (generateWatched watch t n after r)
        (fun r' => r'.stack.length = last) d) :
    Agrees (generateWithin t (n + 1) ⟨start, i :: rest⟩ r)
      (generateWatched watch t (n + 1) ⟨start, i :: rest⟩ r)
      (fun r' => r'.stack.length = last) d := by
  have hboth := hstep.bind (f := fun x => generateWithin t n x.2 x.1)
    (g := fun x => generateWatched watch t n x.2 x.1) fun x d' hx => hx.2 ▸ hrest x.1 d' hx.1
  exact ⟨(gen_bind hwatch).trans hboth.same, hboth.outcome⟩

/-- A watch that does nothing at the heights of the record. -/
def QuietAt (record : List (Nat × Nat)) (watch : Watch) : Prop :=
  ∀ index i r d, (index, r.stack.length) ∈ record → watch index i r d = .ok ((), d)

theorem QuietAt.mono {record' : List (Nat × Nat)} (h : QuietAt record watch)
    (hsub : ∀ x ∈ record', x ∈ record) : QuietAt record' watch :=
  fun index i r d hx => h index i r d (hsub _ hx)

theorem QuietAt.head {start h : Nat} {r : Region}
    (hquiet : QuietAt ((start, h) :: record) watch) (hr : r.stack.length = h) (i : Instruction)
    (d : Draft) : watch start i r d = .ok ((), d) :=
  hquiet start i r d (hr ▸ List.mem_cons_self ..)

/-- The parts that are cut out of a segment hold instructions of it, and are shorter. -/
theorem parts_of_takeBlock {s body after : Segment} {sought : Terminator}
    {label : Option BlockLabel} (h : s.takeBlock sought label = .ok (body, after)) {n : Nat}
    (hs : (∀ i ∈ s.code, Usable t i) ∧ s.code.length ≤ n) :
    ((∀ i ∈ body.code, Usable t i) ∧ body.code.length ≤ n) ∧
      (∀ i ∈ after.code, Usable t i) ∧ after.code.length ≤ n := by
  have hlength := Segment.length_of_takeBlock h
  obtain ⟨husable, hn⟩ := hs
  obtain ⟨hbody, hafter⟩ := Segment.forall_mem_of_takeBlock h husable
  exact ⟨⟨hbody, by omega⟩, hafter, by omega⟩

/-- **The generator has the heights of the check**, and comes to its end where the check does. -/
theorem agrees_of_checked (ht : t.Sound) {s : Segment} {h last : Nat}
    (hc : Checked s h record last) : QuietAt record watch → ∀ (n : Nat) (r : Region) (d : Draft),
      ((∀ i ∈ s.code, Usable t i) ∧ s.code.length ≤ n) → r.stack.length = h →
        Agrees (generateWithin t n s r) (generateWatched watch t n s r)
          (fun r' => r'.stack.length = last) d := by
  -- what is behind the first instruction needs less fuel
  have hbehind : ∀ {i : Instruction} {rest : List Instruction} {n : Nat},
      ((∀ j ∈ i :: rest, Usable t j) ∧ (i :: rest).length ≤ n) →
        Usable t i ∧ ∃ m, n = m + 1 ∧ (∀ j ∈ rest, Usable t j) ∧ rest.length ≤ m := by
    rintro i rest n ⟨hs, hn⟩
    rw [List.forall_mem_cons] at hs
    rw [List.length_cons] at hn
    exact ⟨hs.1, n - 1, by omega, hs.2, by omega⟩
  induction hc with
  | nil =>
    intro _ n r d _ hr
    cases n <;> exact agrees_pure hr
  | @plain start h taken left last i rest later he hh _ ih =>
    intro hquiet n r d hs hr
    obtain ⟨hi, n, rfl, hrest⟩ := hbehind hs
    refine agrees_cons (hquiet.head hr i d)
      (agrees_step_plain ht hi he (by rw [hr]; exact hh)) fun r' d' hr' => ?_
    exact ih (hquiet.mono fun x hx => List.mem_cons_of_mem _ hx) n r' d' hrest (by rw [hr', hr])
  | @cond start h m last i rest yes mid no after inYes inNo later hi hcut hcut' _ _ _ ihy ihn ihr =>
    intro hquiet n r d hs hr
    obtain ⟨-, n, rfl, hrest⟩ := hbehind hs
    obtain ⟨hyes, hmid⟩ := parts_of_takeBlock hcut hrest
    obtain ⟨hno, hafter⟩ := parts_of_takeBlock hcut' hmid
    have hinYes : QuietAt inYes watch := hquiet.mono fun x hx => by simp [hx]
    have hinNo : QuietAt inNo watch := hquiet.mono fun x hx => by simp [hx]
    have hlater : QuietAt later watch := hquiet.mono fun x hx => by simp [hx]
    refine agrees_cons (hquiet.head hr i d)
      (agrees_step_cond hi hr hcut hcut' (fun r d hr => ihy hinYes n r d hyes hr)
        fun r d hr => ihn hinNo n r d hno hr) fun r d hr => ihr hlater n r d hafter hr
  | @loop start h last i rest test mid body after inTest inBody later hi hcut hcut' _ _ _ iht ihb
      ihr =>
    intro hquiet n r d hs hr
    obtain ⟨-, n, rfl, hrest⟩ := hbehind hs
    obtain ⟨htest, hmid⟩ := parts_of_takeBlock hcut hrest
    obtain ⟨hbody, hafter⟩ := parts_of_takeBlock hcut' hmid
    have hinTest : QuietAt inTest watch := hquiet.mono fun x hx => by simp [hx]
    have hinBody : QuietAt inBody watch := hquiet.mono fun x hx => by simp [hx]
    have hlater : QuietAt later watch := hquiet.mono fun x hx => by simp [hx]
    refine agrees_cons (hquiet.head hr i d)
      (agrees_step_loop hi hr hcut hcut' (fun r d hr => iht hinTest n r d htest hr)
        fun r d hr => ihb hinBody n r d hbody hr) fun r d hr => ihr hlater n r d hafter hr
  | @method start h last i rest name s body after inBody later hi hcut _ _ ihb ihr =>
    intro hquiet n r d hs hr
    obtain ⟨husable, n, rfl, hrest⟩ := hbehind hs
    obtain ⟨hbody, hafter⟩ := parts_of_takeBlock hcut hrest
    have hinBody : QuietAt inBody watch := hquiet.mono fun x hx => by simp [hx]
    have hlater : QuietAt later watch := hquiet.mono fun x hx => by simp [hx]
    refine agrees_cons (hquiet.head hr i d)
      (agrees_step_method hi (husable.bodyScope s (by rw [hi]; rfl)) hcut
        fun d => ihb hinBody n {} d hbody rfl) fun r' d hr' => ihr hlater n r' d hafter ?_
    rw [hr', hr]
  | @block start h last i rest s body after inBody later hi hcut _ _ ihb ihr =>
    intro hquiet n r d hs hr
    obtain ⟨husable, n, rfl, hrest⟩ := hbehind hs
    obtain ⟨hbody, hafter⟩ := parts_of_takeBlock hcut hrest
    have hinBody : QuietAt inBody watch := hquiet.mono fun x hx => by simp [hx]
    have hlater : QuietAt later watch := hquiet.mono fun x hx => by simp [hx]
    refine agrees_cons (hquiet.head hr i d)
      (agrees_step_block hi (husable.bodyScope s (by rw [hi]; rfl)) hcut
        fun d => ihb hinBody n {} d hbody rfl) fun r' d hr' => ihr hlater n r' d hafter ?_
    rw [hr', hr]

end

/-! ## Programs -/

theorem usable_of_validate {P : Program} (hvalid : P.validate = .ok ())
    (hargs : ∀ i ∈ P.code, i.op.argCount.toNat < 2 ^ 63) :
    P.scopes.Sound ∧ ∀ i ∈ P.code, Usable P.scopes i := by
  obtain ⟨_, hscopes, hcode⟩ := bind_eq_ok hvalid
  have hsound := ScopeTree.validate_eq_ok_iff.mp hscopes
  have hnamed := (Program.checkCode_eq_ok_iff 0).mp hcode
  refine ⟨hsound, fun i hi => ⟨?_, fun s hs => ?_, hargs i hi⟩⟩
  · exact hnamed i hi _ (List.mem_cons_self ..)
  · exact hnamed i hi s (List.mem_cons_of_mem _ (by rw [hs]; exact List.mem_cons_self ..))

/-- **The generator accepts what the check accepts.** On a checked program it makes C of the code or
meets a variable that no scope declares, and no other error comes out of it. The check has one
height at each instruction but the marks, zero where a body begins, and a watch that does nothing
at these heights never does anything: they are the heights of the symbolic stack. The top level
ends with the operands that the check was told to expect. -/
theorem generate_keeps_checked_heights {P : Program} {h : Nat} (settings : Settings)
    (hvalid : P.validate = .ok ()) (hargs : ∀ i ∈ P.code, i.op.argCount.toNat < 2 ^ 63)
    (hcheck : checkHeights P.code h = .ok ()) :
    ((∃ u r d, generate settings P = .ok u ∧
        generateWithin P.scopes P.code.length P.segment {} {} = .ok (r, d) ∧
        r.stack.length = h) ∨
      ∃ e, generate settings P = .error (.unknownVariable e)) ∧
    ∃ heights, P.segment.heights 0 = .ok (heights, h) ∧
      heights.map Prod.fst = placesFrom Op.isStep 0 P.code ∧
      (∀ (k : Nat) (i : Instruction), P.code[k]? = some i → i.op.opensBody = true →
        (k + 1, 0) ∈ heights) ∧
      ∀ watch, QuietAt heights watch → unitWatched watch settings P = generate settings P := by
  obtain ⟨hsound, husable⟩ := usable_of_validate hvalid hargs
  obtain ⟨heights, hheights, hchecked⟩ := exists_checked_of_checkHeights hcheck
  have hroot : P.scopes.contains .root = true := decide_eq_true hsound.root
  have hcode : (∀ i ∈ P.segment.code, Usable P.scopes i) ∧ P.segment.code.length ≤ P.code.length :=
    ⟨husable, Nat.le_refl _⟩
  have hagrees : ∀ watch, QuietAt heights watch →
      Agrees (generateWithin P.scopes P.code.length P.segment {})
        (generateWatched watch P.scopes P.code.length P.segment {})
        (fun r => r.stack.length = h) {} := fun watch hquiet =>
    agrees_of_checked hsound hchecked hquiet P.code.length {} {} hcode rfl
  refine ⟨?_, heights, hheights, hchecked.places, fun k i hk hi => ?_, fun watch hquiet => ?_⟩
  · have houtcome := (hagrees (fun _ _ _ => pure ()) fun _ _ _ _ _ => rfl).outcome
    obtain ⟨owned, hget⟩ := ScopeTree.exists_get? (of_decide_eq_true hroot)
    cases hrun : generateWithin P.scopes P.code.length P.segment {} {} with
    | ok result =>
      obtain ⟨r, d⟩ := result
      rw [hrun] at houtcome
      refine .inl ⟨d.toUnit settings (r.toFunction .main .root owned r.result), r, d, ?_, rfl,
        houtcome⟩
      unfold generate
      simp only [StateT.run, function_main hrun hget]
      rfl
    | error e =>
      rw [hrun] at houtcome
      have hgenerate : generate settings P = .error e := by
        unfold generate function
        simp only [StateT.run, gen_bind_error hrun]
        rfl
      cases e with
      | unknownVariable e => exact .inr ⟨e, hgenerate⟩
      | malformed | missingScope => exact houtcome.elim
  · have hmem := hchecked.body_start _ (mem_placesFrom hk hi)
    rwa [Nat.zero_add] at hmem
  · have hmain := (agrees_function hroot (.inl rfl) (hagrees watch hquiet)).same
    rw [unitWatched, generate_eq_unitBy, unitBy, unitBy]
    simp only [StateT.run]
    rw [hmain]

/-- Defines a method that picks one of two texts by a condition, calls it in a block, and throws
away what it does in a loop. -/
def pickAndLoop : Program where
  code := [⟨.defineMethod "pick" ⟨1⟩, .root⟩, ⟨.checkArgs 1, ⟨1⟩⟩, ⟨.pushArg 0, ⟨1⟩⟩,
    ⟨.setLocal "x" true, ⟨1⟩⟩, ⟨.getLocal "x", ⟨1⟩⟩, ⟨.ifTrue, ⟨1⟩⟩, ⟨.pushString "yes", ⟨1⟩⟩,
    ⟨.orElse, ⟨1⟩⟩, ⟨.pushString "no", ⟨1⟩⟩, ⟨.endBlock .cond, ⟨1⟩⟩, ⟨.endBlock .method, ⟨1⟩⟩,
    ⟨.pop, .root⟩, ⟨.whileTrue, .root⟩, ⟨.getGlobal "$on", .root⟩, ⟨.loopBody, .root⟩,
    ⟨.getGlobal "$on", .root⟩, ⟨.pop, .root⟩, ⟨.pushFalse, .root⟩, ⟨.setGlobal "$on", .root⟩,
    ⟨.endBlock .loop, .root⟩, ⟨.defineBlock ⟨2⟩, .root⟩, ⟨.getGlobal "$on", ⟨2⟩⟩,
    ⟨.send "pick" 1 false false, ⟨2⟩⟩, ⟨.endBlock .block, ⟨2⟩⟩, ⟨.send "tap" 0 false true, .root⟩]
  scopes := { scopes := #[{}, { vars := Table.empty.insert "x" 0 }, { outer := some .root }] }

theorem pickAndLoop_keeps_checked_heights :
    pickAndLoop.validate = .ok () ∧ checkHeights pickAndLoop.code 1 = .ok () ∧
      ∀ watch, QuietAt [(0, 0), (1, 0), (2, 0), (3, 1), (4, 0), (5, 1), (6, 0), (8, 0), (11, 1),
          (12, 0), (13, 0), (15, 0), (16, 1), (17, 0), (18, 1), (20, 0), (21, 0), (22, 1),
          (24, 1)] watch →
        unitWatched watch {} pickAndLoop = generate {} pickAndLoop := by
  have hvalid : pickAndLoop.validate = .ok () := by decide +kernel
  have hargs : ∀ i ∈ pickAndLoop.code, i.op.argCount.toNat < 2 ^ 63 := by decide +kernel
  have hcheck : checkHeights pickAndLoop.code 1 = .ok () := by decide +kernel
  obtain ⟨-, heights, hheights, -, -, hsame⟩ :=
    generate_keeps_checked_heights {} hvalid hargs hcheck
  refine ⟨hvalid, hcheck, fun watch hquiet => hsame watch ?_⟩
  rw [show pickAndLoop.segment.heights 0 = .ok (_, 1) from by rfl] at hheights
  cases hheights
  exact hquiet

end StackCode.CUnit
