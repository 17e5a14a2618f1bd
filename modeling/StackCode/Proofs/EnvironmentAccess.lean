import StackCode.Proofs.CrossReferences
import StackCode.Proofs.Visible

/-!
# Accesses to environments

A function of a unit reaches the variables of the bodies around it through a chain of environments:
an access names how many steps to go outwards, and a slot there. Nothing checks either when the C
runs. The number of steps is counted in the scopes, from the scope of the instruction, which may be
one of a branch; the chain comes from closures that are made one inside the other.

In the unit of a lowered program every access of the layout is in bounds
(`generated_accesses_in_bounds`). What carries the proof is that every instruction of a body stands in
a scope whose variables belong to the body, so that counting from the instruction is counting from
the body. C reads the accesses of the layout and no others as long as no name of the program ends the
comment that repeats it; a name that does can go anywhere (`accessInName_out_of_bounds`).
-/

namespace StackCode

open ScopeTree (Binds Hoists)

/-! ## Steps outwards -/

namespace ScopeTree

variable {t : ScopeTree} {s r b home : ScopeId} {scope : Scope} {name : String} {localOnly : Bool}
  {d : Nat} {k : UInt64}

/-- From a block scope to the scope that owns what stands around the block. -/
def around? (t : ScopeTree) (s : ScopeId) : Option ScopeId := do
  let scope ← t.get? s
  if scope.block then t.hoistTarget? (← scope.outer) else none

/-- As many steps outwards. -/
def outward? (t : ScopeTree) : Nat → ScopeId → Option ScopeId
  | 0, s => some s
  | d + 1, s => do t.outward? d (← t.around? s)

theorem around?_of_block {o : ScopeId} (hs : t.get? s = some scope) (hblock : scope.block = true)
    (ho : scope.outer = some o) : t.around? s = t.hoistTarget? o := by
  simp [around?, hs, hblock, ho]

theorem Hoists.eq_self (h : Hoists t s r) (hs : t.get? s = some scope) (hh : scope.hoist = false) :
    r = s := by
  cases h with
  | self => rfl
  | outward hs' hh' =>
    obtain rfl := Option.some.inj (hs.symm.trans hs')
    exact absurd (hh.symm.trans hh') Bool.false_ne_true

theorem Binds.exists_hoists (hb : Binds t name localOnly s d r k) : ∃ b, Hoists t s b := by
  induction hb with
  | here hs hh => exact ⟨_, .self hs hh⟩
  | hoisted hs hh ho _ ih =>
    obtain ⟨b, hb⟩ := ih
    exact ⟨b, .outward hs hh ho hb⟩
  | outward hs hh => exact ⟨_, .self hs hh⟩

/-- **The depth of a variable is the number of steps to its scope**, from the scope that owns what
stands where the search begins. -/
theorem Binds.outward?_eq (ht : t.Sound) (hb : Binds t name localOnly s d r k)
    (hs : Hoists t s b) : t.outward? d b = some r := by
  induction hb generalizing b with
  | here hget hh =>
    obtain rfl := hs.eq_self hget hh
    rfl
  | hoisted hget hh ho _ ih =>
    cases hs with
    | self hget' hh' =>
      obtain rfl := Option.some.inj (hget.symm.trans hget')
      exact absurd (hh'.symm.trans hh) Bool.false_ne_true
    | outward hget' _ ho' hs =>
      obtain rfl := Option.some.inj (hget.symm.trans hget')
      obtain rfl := Option.some.inj (ho.symm.trans ho')
      exact ih hs
  | outward hget hh _ hblock _ ho hb ih =>
    obtain rfl := hs.eq_self hget hh
    obtain ⟨b', hb'⟩ := hb.exists_hoists
    rw [outward?, around?_of_block hget hblock ho, hb'.target ht]
    exact ih hb'

/-- A search that may go further finds no other variable. -/
theorem Binds.anywhere (hb : Binds t name localOnly s d r k) : Binds t name false s d r k := by
  induction hb with
  | here hs hh hk => exact .here hs hh hk
  | hoisted hs hh ho _ ih => exact .hoisted hs hh ho ih
  | outward hs hh hn hblock _ ho _ ih => exact .outward hs hh hn hblock rfl ho ih

/-- Slot `k` of the environment `d` steps out from the body with scope `home` is there, and is that
of the variable which the name means in the body. -/
def InReach (t : ScopeTree) (home : ScopeId) (d : Nat) (k : UInt64) (name : String) : Prop :=
  ∃ owner scope, t.resolve? home name false = some (.ok ⟨owner, d, k⟩) ∧
    t.outward? d home = some owner ∧ t.get? owner = some scope ∧
    scope.vars.get? name = some k ∧ k.toNat < scope.vars.size

theorem inReach_of_resolve? {found : Resolved} (ht : t.Proper) (hhome : t.hoistTarget? s = some home)
    (h : t.resolve? s name localOnly = some (.ok found)) :
    t.InReach home found.depth found.slot name := by
  have hb := (resolve?_eq_ok_iff ht.toSound).mp h
  have hhoists := ht.hoistTarget?_eq_some_iff.mp hhome
  obtain ⟨scope, hget, -, hslot⟩ := hb.owner
  have hentry := (Table.findEntry_eq_some_iff scope.vars.distinct).mp hslot
  refine ⟨found.scope, scope, ?_, hb.outward?_eq ht.toSound hhoists, hget, hslot,
    ht.slots _ scope hget _ hentry⟩
  exact (resolve?_eq_ok_iff ht.toSound).mpr (hhoists.binds_iff.mp hb.anywhere)

end ScopeTree

namespace CUnit

/-! ## Uses of environments -/

/-- The token is possible in a body with scope `home`: a variable is in reach, and a closure is made
of a function whose variables are those of a block in this body. -/
def Token.Reaches (t : ScopeTree) (functions : List Function) (home : ScopeId) : Token → Prop
  | .slot d k name => t.InReach home d k name
  | .closure name => ∃ f ∈ functions, f.name = name ∧ t.around? f.scope = some home
  | _ => True

instance (t : ScopeTree) (functions : List Function) (home : ScopeId) :
    PlainTemps (Token.Reaches t functions home) where
  plain token h := by
    cases token with
    | slot | closure => cases h
    | _ => trivial
  declare _ := trivial
  use _ := trivial

/-- The function has an environment of the size that its scope asks for, with another one around it
just when it is a block; and all its uses of environments are possible. -/
structure Function.Reaches (t : ScopeTree) (functions : List Function) (f : Function) : Prop where
  scope : ∃ owned, t.get? f.scope = some owned ∧ owned.hoist = false ∧
    f.envSize = owned.vars.size ∧ (owned.block = true ↔ ∃ n, f.name = .block n)
  body : f.Only (Token.Reaches t functions f.scope)

section

variable {t : ScopeTree} {functions : List Function} {home : ScopeId} {r r' : Region}

theorem Region.reaches_toFunction {owned : Scope} {name : FunctionName} {v : Operand}
    (h : r.Only (Token.Reaches t functions home))
    (hv : Every (Token.Reaches t functions home) v.tokens) (hget : t.get? home = some owned)
    (hh : owned.hoist = false) (hblock : owned.block = true ↔ ∃ n, name = .block n) :
    (r.toFunction name home owned v).Reaches t functions :=
  ⟨⟨owned, hget, hh, rfl, hblock⟩, h.toFunction hv name home owned⟩

/-- What an instruction adds that opens no block. -/
theorem Acts.reaching {link : Linking} {d : Draft} {i : Instruction} (ht : t.Proper)
    (hhome : t.hoistTarget? i.scope = some home) (h : Acts t link d i r r')
    (hr : r.Only (Token.Reaches t functions home)) :
    r'.Only (Token.Reaches t functions home) := by
  have hslot : ∀ name localOnly found, t.resolve? i.scope name localOnly = some (.ok found) →
      Token.Reaches t functions home (.slot found.depth found.slot name) :=
    fun _ _ _ hfound => ScopeTree.inReach_of_resolve? ht hhome hfound
  cases h with
  | @constant a _ =>
    exact hr.push (a.every (fun _ => trivial) (fun _ => trivial) fun _ => trivial)
  | pop _ hdiscard => exact hr.discard hdiscard (Region.ne_nil_of_discard hdiscard)
  | dup _ hs => exact hr.push (hr.stack _ (hs ▸ List.mem_cons_self ..))
  | compute hvalue =>
    obtain ⟨htokens, hbelow⟩ := hvalue.every hslot (fun _ _ _ => ⟨trivial, trivial⟩)
      (fun _ _ => trivial) hr.stack
    exact hr.memoize htokens hbelow _
  | execute hs =>
    obtain ⟨htokens, hbelow⟩ := hs.every hslot (fun _ _ _ => ⟨trivial, trivial⟩)
      (fun _ _ => trivial) hr.stack
    exact hr.emit hs.isLine htokens hbelow

end

/-! ## Units -/

section

variable {t : ScopeTree} {functions : List Function} {p q : Point} {r r' : Region} {d d' : Draft}
  {code : List Instruction} {i : Instruction}

/-- An instruction stands in a scope whose variables belong to its body. -/
theorem hoistTarget?_of_admits (ha : (placement t).admits p i = true) {e : Nat × Nat}
    (he : i.op.effect? = some e) : t.hoistTarget? i.scope = some p.site.scope := by
  have hbelongs := (admits_placement_iff.mp ha).2.1
  cases hop : i.op with
  | endBlock =>
    rw [hop] at he
    cases he
  | _ =>
    rw [hop] at hbelongs
    exact of_decide_eq_true hbelongs

theorem Draft.Grows.functions_subset (h : d.Grows d') : d.functions ⊆ d'.functions := by
  obtain ⟨more, heq, -⟩ := h.functions
  rw [heq]
  exact List.subset_append_left _ _

/-- **All uses of environments are possible in generated code.** Every function ends up among
`functions`. -/
theorem Translates.reaching (ht : t.Proper) (h : Translates t p r d code q r' d')
    (hfunctions : d'.functions ⊆ functions) (hr : r.Only (Token.Reaches t functions p.site.scope))
    (hd : d.Each (Function.Reaches t functions)) :
    r'.Only (Token.Reaches t functions p.site.scope) ∧ d'.Each (Function.Reaches t functions) := by
  induction h with
  | nil => exact ⟨hr, hd⟩
  | @plain p _ _ r₁ _ _ _ _ _ _ _ _ ha he _ hstep _ _ ih =>
    obtain ⟨hacts, -, rfl⟩ := acts_of_step (opens?_of_effect he) (hstep (fun _ _ => pure {}) ⟨0, []⟩)
    have hr₁ : r₁.Only (Token.Reaches t functions p.site.scope) :=
      hacts.reaching ht (hoistTarget?_of_admits ha he) hr
    exact ih hfunctions hr₁ (hd.of_functions_eq (Draft.functions_after _ _))
  | @cond p _ _ _ r _ _ _ _ _ _ _ _ below _ _ _ _ _ _ _ _ _ _ hs _ hn _ hrest ihy ihn ihr =>
    have hsubset := List.Subset.trans hrest.grows.functions_subset hfunctions
    have hstack := hr.stack
    rw [hs, List.forall_mem_cons] at hstack
    obtain ⟨hyes, hd₁⟩ := ihy (List.Subset.trans hn.grows.functions_subset hsubset) (.fork hstack.2)
      hd
    obtain ⟨hno, hd₂⟩ := ihn hsubset (.fork hstack.2) hd₁
    have hbelow : Region.Only (Token.Reaches t functions p.site.scope) { r with stack := below } :=
      ⟨hstack.2, hr.code⟩
    exact ihr hfunctions (hbelow.joined hstack.1 hyes hno _) (hd₂.of_functions_eq rfl)
  | loop _ _ _ _ _ _ hs hb _ hrest iht ihb ihr =>
    have hsubset := List.Subset.trans hrest.grows.functions_subset hfunctions
    obtain ⟨htest, hd₁⟩ := iht (List.Subset.trans hb.grows.functions_subset hsubset)
      (.fork hr.stack) hd
    obtain ⟨hbody, hd₂⟩ := ihb hsubset (.fork hr.stack) hd₁
    have hv := htest.stack _ (hs ▸ List.mem_cons_self ..)
    refine ihr hfunctions ⟨hr.stack, List.forall_mem_cons.mpr ⟨?_, hr.code⟩⟩ hd₂
    exact Stmt.only_loop hv htest.statements hbody.statements
  | method ha hi _ _ _ hs hget hrest ihb ihr =>
    have hafter := List.Subset.trans hrest.grows.functions_subset hfunctions
    obtain ⟨hinner, hd₁⟩ := ihb (List.Subset.trans (List.subset_append_left _ _) hafter)
      (.fork nofun) (hd.of_functions_eq rfl)
    have hv := hinner.stack _ (hs ▸ List.mem_cons_self ..)
    have hfits := fits_of_admits ha
    rw [hi] at hfits
    obtain ⟨owned', hget', hh, hblock⟩ := Op.opensMethod_iff.mp hfits
    obtain rfl := Option.some.inj (hget.symm.trans hget')
    refine ihr hfunctions (Region.Only.push (hr.emit rfl ?_ hr.stack) ?_)
      ((hd₁.of_functions_eq rfl).addFunction
        (Region.reaches_toFunction hinner hv hget hh (iff_of_false ?_ ?_)))
    · exact every_cons trivial (every_of_isPlain rfl)
    · exact every_cons trivial every_nil
    · exact fun h => Bool.false_ne_true (hblock.symm.trans h)
    · exact fun ⟨_, h⟩ => nomatch h
  | @block _ _ _ _ inner _ d d₁ _ v _ owned _ _ s _ _ ha hi _ _ _ hs hget hrest ihb ihr =>
    have hafter := List.Subset.trans hrest.grows.functions_subset hfunctions
    obtain ⟨hinner, hd₁⟩ := ihb (List.Subset.trans (List.subset_append_left _ _) hafter)
      (.fork nofun) (hd.of_functions_eq rfl)
    have hv := hinner.stack _ (hs ▸ List.mem_cons_self ..)
    have hfits := fits_of_admits ha
    rw [hi] at hfits
    obtain ⟨owned', o, hget', hh, hblock, ho, htarget⟩ := Op.opensBlock_iff.mp hfits
    obtain rfl := Option.some.inj (hget.symm.trans hget')
    have hfunction : (inner.toFunction (.block d.nextFunction) s owned v).Reaches t functions :=
      Region.reaches_toFunction hinner hv hget hh (iff_of_true hblock ⟨_, rfl⟩)
    have hunit := hd₁.addFunction hfunction
    refine ihr hfunctions (hr.memoize ?_ hr.stack _) (hunit.of_functions_eq rfl)
    refine every_plain rfl (every_cons ?_ (every_of_isPlain rfl))
    refine ⟨_, hafter (List.mem_append_right _ (List.mem_singleton_self _)), rfl, ?_⟩
    exact (ScopeTree.around?_of_block hget hblock ho).trans htarget

/-- **Every access to an environment is in bounds** in the unit of a lowered program, whether or not
the passes have been over it. There is such a unit: no variable is unknown. As each of its functions
is laid out, an access `d` steps out and to slot `k` goes through block scopes only, comes to the
scope that declares the variable, and finds the slot among its variables; a closure is made of a
function whose environment is the next one inside that of the function which makes it; and no C
stands anywhere as it is. C reads functions as they are laid out, with no other access, unless a name
of the program ends the comment that repeats it. -/
theorem generated_accesses_in_bounds {e : Expr} {used : Bool} {P : Program} (hc : e.Countable {})
    (h : e.toProgram used = .ok P ∨ e.compile used = .ok P) (hsmall : P.scopes.size ≤ 2 ^ 32)
    (settings : Settings) :
    ∃ u, generate settings P = .ok u ∧
      (∀ f ∈ u.allFunctions,
        (∃ owned, P.scopes.get? f.scope = some owned ∧ owned.hoist = false ∧
          f.envSize = owned.vars.size ∧ (owned.block = true ↔ ∃ n, f.name = .block n)) ∧
        f.layout.map Line.text = f.lines ∧
        ∀ line ∈ f.layout,
          (∀ d k name, .slot d k name ∈ line → P.scopes.InReach f.scope d k name) ∧
          (∀ name, .closure name ∈ line →
            ∃ g ∈ u.functions, g.name = name ∧ P.scopes.around? g.scope = some f.scope) ∧
          ∀ text, .raw text ∉ line) ∧
      (P.KeepsComments → ∀ f ∈ u.allFunctions, f.ReadAsLaidOut) := by
  have hdisciplined : P.Disciplined used.toNat := by
    rcases h with h | h
    · exact disciplined_of_toProgram hc h hsmall
    · exact disciplined_of_compile hc h hsmall
  obtain ⟨r, d, owned, htranslates, hget, hgenerate⟩ := exists_generate hdisciplined settings
  obtain ⟨hr, hd⟩ := htranslates.reaching hdisciplined.scopes (List.Subset.refl _) ⟨nofun, nofun⟩
    fun _ hf => nomatch hf
  obtain ⟨owned', hget', hh, hblock⟩ := Op.opensMethod_iff.mp hdisciplined.top
  obtain rfl := Option.some.inj (hget.symm.trans hget')
  have hmain : (r.toFunction .main .root owned r.result).Reaches P.scopes d.functions := by
    refine Region.reaches_toFunction hr (Region.every_result hr.stack) hget hh (iff_of_false ?_ ?_)
    · exact fun h => Bool.false_ne_true (hblock.symm.trans h)
    · exact fun ⟨_, h⟩ => nomatch h
  refine ⟨_, hgenerate, fun f hf => ?_, readAsLaidOut_of_generate hgenerate⟩
  have hreaches : f.Reaches P.scopes d.functions := by
    rcases List.mem_append.mp hf with hf | hf
    · exact hd f hf
    · exact List.mem_singleton.mp hf ▸ hmain
  refine ⟨hreaches.scope, f.text_layout, fun line hline => ?_⟩
  have htokens := Function.every_layout hreaches.body line hline
  exact ⟨fun d k name htoken => htokens _ htoken, fun name htoken => htokens _ htoken,
    ne_raw_of_generate hgenerate f hf line hline⟩

end

/-- A block inside a branch of a block, which assigns a variable of the top level. -/
def nestedBlocks : Expr := .seq [
  .assign "sum" (.int 0),
  .iter none "each" [] ["row"] [
    .cond (.var "row") (some (.iter none "each" [] ["cell"] [
      .assign "sum" (.call (some (.var "sum")) "+" [.var "row"])])) none]]

theorem nestedBlocks_in_bounds :
    ∃ P u inner, nestedBlocks.compile false = .ok P ∧ P.scopes.size ≤ 2 ^ 32 ∧ P.KeepsComments ∧
      generate {} P = .ok u ∧ inner ∈ u.functions ∧ inner.ReadAsLaidOut ∧
      (∃ line ∈ inner.layout, .slot 2 0 "sum" ∈ line) ∧
      P.scopes.InReach inner.scope 2 0 "sum" := by
  obtain ⟨P, hP, hsmall, hkept, hslot⟩ : ∃ P, nestedBlocks.compile false = .ok P ∧
      P.scopes.size ≤ 2 ^ 32 ∧ P.KeepsComments ∧
      (generate {} P).map (fun u => decide (∃ f ∈ u.functions, ∃ line ∈ f.layout,
        .slot 2 0 "sum" ∈ line)) = .ok true :=
    ⟨_, rfl, by decide +kernel, by decide +kernel, by decide +kernel⟩
  obtain ⟨u, hu, hreach, hread⟩ := generated_accesses_in_bounds
    (Expr.countable_of_sizeOf_lt (by decide)) (.inr hP) hsmall {}
  rw [hu] at hslot
  obtain ⟨inner, hmem, line, hline, htoken⟩ := of_decide_eq_true (Except.ok.inj hslot)
  have hall := List.mem_append_left [u.main] hmem
  exact ⟨P, u, inner, hP, hsmall, hkept, hu, hmem, hread hkept inner hall, ⟨line, hline, htoken⟩,
    ((hreach inner hall).2.2 line hline).1 2 0 "sum" htoken⟩

/-- A variable whose name ends its comment, and goes on with slot 99 of the environment 9 steps
out. -/
def accessInName : Expr :=
  .assign "*\\\n/ = rt_env_at(env, 9)->vars[99]; env->vars[0] /*" (.int 1)

/-- **A name can end its comment and go to an environment that is not there.** The assignment is
lowered, both checks accept the program, and its C goes nine steps out from a top level which has one
slot, and no environment around it. -/
theorem accessInName_out_of_bounds : ∃ P u, accessInName.compile false = .ok P ∧
    P.validate = .ok () ∧ checkHeights P.code 0 = .ok () ∧ generate {} P = .ok u ∧
    u.main.envSize = 1 ∧ P.scopes.outward? 9 u.main.scope = none ∧
    ["rt_env_at", "(", "env", ",", "9", ")", "-", ">", "vars", "[", "99", "]"] <:+:
      wordsRead (textOf u.main.lines) := by
  obtain ⟨P, hP, hvalid, hheights, hwords⟩ : ∃ P, accessInName.compile false = .ok P ∧
      P.validate = .ok () ∧ checkHeights P.code 0 = .ok () ∧
      (generate {} P).map (fun u => decide (u.main.envSize = 1 ∧
        P.scopes.outward? 9 u.main.scope = none ∧
        ["rt_env_at", "(", "env", ",", "9", ")", "-", ">", "vars", "[", "99", "]"] <:+:
          wordsRead (textOf u.main.lines))) = .ok true := by
    refine ⟨_, rfl, by decide +kernel, by decide +kernel, ?_⟩
    simp only [Function.wordsRead_text]
    decide +kernel
  cases hu : generate {} P with
  | error e =>
    rw [hu] at hwords
    cases hwords
  | ok u =>
    rw [hu] at hwords
    exact ⟨P, u, hP, hvalid, hheights, hu, of_decide_eq_true (Except.ok.inj hwords)⟩

end CUnit

end StackCode
