import Mathlib.Control.Monad.Basic
import Mathlib.Logic.Relation
import StackCode.Proofs.Congruence
import StackCode.Proofs.GeneratedHeights
import StackCode.Proofs.Soundness

/-!
# Accesses to scopes

A tree that `validate` accepts answers every question about a scope that it holds: the searches of
`hoistTarget?` and `resolve?` follow outer links to earlier scopes, so they end before their count
does, and what they find is in the tree (`ScopeTree.answers_of_sound`).

A program that `validate` accepts names only scopes that it has. Its code is cut into parts, kept in
methods and captured blocks, and run later in other calls, but no part of it names anything else:
neither a run nor the generator asks for a scope that is not there. The invariant of a run is that
all code that the state keeps is `Known`.
-/

namespace StackCode

/-! ## Searches -/

namespace ScopeTree

variable {t : ScopeTree} {s r : ScopeId} {name : String} {localOnly : Bool}

/-- The scope `o` is around `s`. -/
def Links (t : ScopeTree) (s o : ScopeId) : Prop :=
  ∃ scope, t.get? s = some scope ∧ scope.outer = some o

/-- What was found from `s` is in the tree: an owner of variables that outer links lead to, with
more variables than the slot, and no more blocks further out than there are scopes before `s`. -/
structure Finds (t : ScopeTree) (s : ScopeId) (found : Resolved) : Prop where
  reached : Relation.ReflTransGen t.Links s found.scope
  depth : found.depth ≤ s.index
  owner : ∃ scope, t.get? found.scope = some scope ∧ scope.hoist = false ∧
    found.slot.toNat < scope.vars.size

/-- Searches from `s` end by themselves, whatever bounds them, and do not leave the tree. -/
structure Answers (t : ScopeTree) (s : ScopeId) : Prop where
  hoists : ∃ r scope, t.hoistTarget? s = some r ∧
    (∀ n, s.index < n → t.hoistWithin n s = some r) ∧ Relation.ReflTransGen t.Links s r ∧
    t.get? r = some scope ∧ (scope.hoist = true → scope.outer = none)
  resolves : ∀ name localOnly, ∃ answer, t.resolve? s name localOnly = some answer ∧
    (∀ n, s.index < n → t.resolveWithin s name localOnly n s 0 = some answer) ∧
    ∀ found, answer = .ok found → t.Finds s found

/-- The search for an owner ends in the tree, at a scope that does not hoist or that has none around
it. -/
theorem exists_hoistWithin (ht : t.Sound) (n : Nat) : ∀ s : ScopeId, s.index < n →
    s.index < t.size → ∃ r scope, t.hoistWithin n s = some r ∧
      Relation.ReflTransGen t.Links s r ∧ t.get? r = some scope ∧
      (scope.hoist = true → scope.outer = none) := by
  induction n with
  | zero => exact fun s hn => absurd hn (Nat.not_lt_zero _)
  | succ n ih =>
    intro s hn hsize
    obtain ⟨scope, hs⟩ := exists_get? hsize
    cases hh : scope.hoist with
    | false =>
      refine ⟨s, scope, ?_, .refl, hs, fun h => ?_⟩
      · simp [hoistWithin, hs, hh]
      · rw [hh] at h
        cases h
    | true =>
      cases ho : scope.outer with
      | none =>
        refine ⟨s, scope, ?_, .refl, hs, fun _ => ho⟩
        simp [hoistWithin, hs, hh, ho]
      | some o =>
        have hlt := ht.outer_lt hs ho
        obtain ⟨r, owner, hr, hreach, howner⟩ := ih o (by omega) (by omega)
        refine ⟨r, owner, ?_, .head ⟨scope, hs, ho⟩ hreach, howner⟩
        simp [hoistWithin, hs, hh, ho, hr]

/-- The count does not matter once it exceeds the scope's number. -/
theorem resolveWithin_congr (ht : t.Sound) (start : ScopeId) (name : String) (localOnly : Bool)
    (n : Nat) : ∀ (m : Nat) (s : ScopeId) (depth : Nat), s.index < n → s.index < m →
      t.resolveWithin start name localOnly n s depth =
        t.resolveWithin start name localOnly m s depth := by
  induction n with
  | zero => exact fun m s depth hn => absurd hn (Nat.not_lt_zero _)
  | succ n ih =>
    intro m s depth hn hm
    obtain ⟨m, rfl⟩ : ∃ k, m = k + 1 := ⟨m - 1, by omega⟩
    cases hs : t.get? s with
    | none => simp [resolveWithin, hs]
    | some scope =>
      cases ho : scope.outer with
      | none => cases hk : scope.vars.get? name <;> simp [resolveWithin, hs, ho, hk]
      | some o =>
        have hlt := ht.outer_lt hs ho
        have houter : ∀ depth, t.resolveWithin start name localOnly n o depth =
            t.resolveWithin start name localOnly m o depth :=
          fun depth => ih m o depth (by omega) (by omega)
        cases hk : scope.vars.get? name <;> simp [resolveWithin, hs, ho, hk, houter]

theorem Binds.reached {d : Nat} {k : UInt64} (hb : Binds t name localOnly s d r k) :
    Relation.ReflTransGen t.Links s r := by
  induction hb with
  | here => exact .refl
  | hoisted hs _ ho _ ih => exact .head ⟨_, hs, ho⟩ ih
  | outward hs _ _ _ _ ho _ ih => exact .head ⟨_, hs, ho⟩ ih

/-- Every block that a search leaves is a scope further to the front. -/
theorem Binds.depth_le (ht : t.Sound) {d : Nat} {k : UInt64}
    (hb : Binds t name localOnly s d r k) : d ≤ s.index := by
  induction hb with
  | here => exact Nat.zero_le _
  | hoisted hs _ ho _ ih =>
    have := ht.outer_lt hs ho
    omega
  | outward hs _ _ _ _ ho _ ih =>
    have := ht.outer_lt hs ho
    omega

theorem Binds.finds (ht : t.Sound) {found : Resolved}
    (hb : Binds t name localOnly s found.depth found.scope found.slot) : t.Finds s found where
  reached := hb.reached
  depth := hb.depth_le ht
  owner := by
    obtain ⟨scope, hs, hh, hk⟩ := hb.owner
    have hentry := (Table.findEntry_eq_some_iff scope.vars.distinct).mp hk
    exact ⟨scope, hs, hh, ht.slots _ _ hs _ hentry⟩

/-- **A sound tree answers for every scope that it holds.** -/
theorem answers_of_sound (ht : t.Sound) (hs : t.contains s = true) : t.Answers s where
  hoists := by
    have hsize : s.index < t.size := of_decide_eq_true hs
    obtain ⟨r, scope, hr, hrest⟩ := exists_hoistWithin ht t.size s hsize hsize
    exact ⟨r, scope, hr, fun n hn => (hoistWithin_congr ht n t.size s hn hsize).trans hr, hrest⟩
  resolves := by
    intro name localOnly
    have hsize : s.index < t.size := of_decide_eq_true hs
    obtain ⟨answer, hanswer⟩ := exists_resolve? ht hs name localOnly
    refine ⟨answer, hanswer, fun n hn => ?_, ?_⟩
    · exact (resolveWithin_congr ht s name localOnly n t.size s 0 hn hsize).trans hanswer
    · rintro found rfl
      exact ((resolve?_eq_ok_iff ht).mp hanswer).finds ht

end ScopeTree

/-! ## Code that names scopes of a tree -/

/-- The tree holds every scope that the code names. -/
def Known (t : ScopeTree) (code : List Instruction) : Prop :=
  ∀ i ∈ code, ∀ s ∈ i.scope :: i.op.bodyScope?.toList, t.contains s = true

section

variable {t : ScopeTree} {i : Instruction} {code : List Instruction}

theorem Known.tail (h : Known t (i :: code)) : Known t code :=
  fun j hj => h j (List.mem_cons_of_mem _ hj)

theorem Known.scope (h : Known t (i :: code)) : t.contains i.scope = true :=
  h i (List.mem_cons_self ..) _ (List.mem_cons_self ..)

theorem Known.bodyScope (h : Known t (i :: code)) {s : ScopeId} (hs : i.op.bodyScope? = some s) :
    t.contains s = true :=
  h i (List.mem_cons_self ..) s (List.mem_cons_of_mem _ (by rw [hs]; exact List.mem_cons_self ..))

/-- The parts that are cut out of known code are known. -/
theorem Known.parts {s body after : Segment} (h : Known t s.code) {sought : Terminator}
    {label : Option BlockLabel} (hcut : s.takeBlock sought label = .ok (body, after)) :
    Known t body.code ∧ Known t after.code := by
  obtain ⟨start, code⟩ := s
  obtain ⟨mark, rfl, -⟩ := Segment.exists_mark_of_takeBlock hcut
  constructor
  · exact fun j hj => h j (List.mem_append_left _ hj)
  · exact fun j hj => h j (List.mem_append_right _ (List.mem_cons_of_mem _ hj))

/-- A valid program has a sound tree, and its code names scopes of it. -/
theorem Program.known_of_validate {p : Program} (hvalid : p.validate = .ok ()) :
    p.scopes.Sound ∧ Known p.scopes p.code := by
  obtain ⟨_, hscopes, hcode⟩ := bind_eq_ok hvalid
  exact ⟨ScopeTree.validate_eq_ok_iff.mp hscopes, (checkCode_eq_ok_iff 0).mp hcode⟩

end

/-! ## Runs -/

namespace Machine

/-- The stop is not for want of a scope. -/
def Stop.InTree : Stop → Prop
  | .fault (.missingScope _) => False
  | _ => True

theorem Stop.InTree.leave {e : Stop} (he : e.InTree) (f : Frame) : (e.leave f).InTree := by
  cases e with
  | outOfFuel => exact he
  | fault e => cases e <;> exact he

/-- All code of a run names scopes of the tree. -/
def knownCode (t : ScopeTree) : Terms where
  code seg := Known t seg.code
  method _ m := t.contains m.scope = true ∧ Known t m.body.code
  closure c := t.contains c.scope = true ∧ Known t c.body.code
  frame _ := True
  tail h := h.tail
  parts h hcut := h.parts hcut
  define hcode hop hbody _ := ⟨hcode.bodyScope (congrArg Op.bodyScope? hop), hbody⟩
  capture hcode hop hbody _ := ⟨hcode.bodyScope (congrArg Op.bodyScope? hop), hbody⟩

/-- Where known code is kept, the computation, the only one of its family, comes to a result and
known code is kept still, or it stops for another reason than a missing scope. -/
def Stays (t : ScopeTree) (α : Type) (m : Unit → Exec α) : Prop :=
  ∀ s, (knownCode t).Holds s.shared →
    Meets Stop.InTree (m ()) (fun _ s' => (knownCode t).Holds s'.shared) s

section

variable {t : ScopeTree} {α β : Type}

theorem stays_bind {m : Unit → Exec α} {f : Unit → α → Exec β} (hm : Stays t α m)
    (hf : ∀ a, Stays t β fun k => f k a) : Stays t β fun k => m k >>= f k :=
  fun s hs => (hm s hs).bind fun a s' hs' => hf a s' hs'

theorem OnStack.stays {m : Exec α} (h : OnStack m) : Stays t α fun _ => m := by
  intro s hs
  rcases h s with ⟨a, stack, heq⟩ | ⟨f, heq, hf⟩
  · exact meets_of_eq heq hs
  · refine meets_of_error heq ?_
    cases f with
    | missingScope => exact hf
    | _ => trivial

theorem stays_tick (cx : Setup) : Stays t Unit fun _ => tick cx :=
  fun _ hs => meets_tick hs (fun _ => trivial) fun _ => trivial

/-- The operations of the machine keep known code. -/
theorem congruence_stays (t : ScopeTree) : Congruence (knownCode t) (Stays t) where
  pure a := (onStack_pure a).stays
  bind := stays_bind
  fail _ hf := (onStack_fail hf).stays
  read hf s hs := hf (fun _ => s) s.shared (fun _ => rfl) hs s hs
  update _ hg s hs := meets_of_eq rfl (hg s.shared hs)
  push v := (onStack_push v).stays
  pop index := (onStack_pop index).stays
  peek index := (onStack_peek index).stays
  popN n index := (onStack_popN n index).stays
  frame index hf := stays_bind (onStack_frame index).stays fun f => hf f trivial
  write text _ hs := meets_write (fun _ _ hs => hs) trivial hs text

end

/-! ### Code -/

section

variable {cx : Setup} {run : Segment → Exec Ended}

/-- A call makes an environment for a scope of the tree. -/
theorem stays_call {body : Segment} (hbody : Stays cx.scopes Ended fun _ => run body)
    {scope : ScopeId} (hscope : cx.scopes.contains scope = true) (parent : Option EnvId)
    (isBlock : Bool) (frame : EnvId → Nat → Frame) : Stays cx.scopes Completion fun _ =>
      callBy leaveCall cx run body scope parent isBlock frame := by
  intro s hs
  obtain ⟨owned, hget⟩ := ScopeTree.exists_get? (of_decide_eq_true hscope)
  obtain ⟨env, henv⟩ : ∃ env, Env.ofScope? cx.scopes scope parent = some env := by
    simp [Env.ofScope?, hget]
  have hleave : ∀ s : State, s.leaveCall.shared = s.shared := by
    intro s
    unfold State.leaveCall
    split <;> rfl
  have hwhole := stays_bind hbody ((congruence_stays cx.scopes).complete isBlock)
  by_cases hdepth : cx.limits.callDepth ≤ s.callDepth
  · exact meets_of_error ((callBy_eq ..).trans (if_pos hdepth)) trivial
  · let entered : State := { s with envs := s.envs.push env
                                    frames := frame s.envs.next s.stack.length :: s.frames }
    have hend : Meets Stop.InTree (fun s => leaveCall ((run body >>= complete isBlock) s))
        (fun _ s' => (knownCode cx.scopes).Holds s'.shared) entered :=
      meets_leaveCall (fun _ f he => he.leave f) (hwhole entered (hs.congr rfl rfl))
        fun _ s' hs' => (hleave s').symm ▸ hs'
    refine hend.of_eq ((callBy_eq ..).trans ?_)
    rw [if_neg hdepth, henv]

/-- Instructions ask for scopes of the tree only if the code that they run does. -/
theorem upholds_stays (ht : cx.scopes.Sound) (n : Nat)
    (hrun : ∀ {seg}, Known cx.scopes seg.code → Stays cx.scopes Ended fun _ => run seg) :
    Upholds (knownCode cx.scopes) (Stays cx.scopes) (fun _ => leaveCall) (fun _ => cx)
      (fun _ => run) fun _ => n where
  toCongruence := congruence_stays cx.scopes
  runs := hrun
  lookup hcode env name localOnly := by
    -- the search of a sound tree from a scope of it has an answer
    obtain ⟨answer, hanswer⟩ := ScopeTree.exists_resolve? ht hcode.scope name localOnly
    refine (congruence_stays cx.scopes).checkLookup (fun _ => rfl) (fun _ => rfl) (fun hnone => ?_) env _
    rw [hanswer] at hnone
    cases hnone
  call _ hcalls parent isBlock := by
    cases hcalls with
    | send _ hm => exact stays_call (hrun hm.2) hm.1 parent isBlock _
    | yield _ hc => exact stays_call (hrun hc.2) hc.1 parent isBlock _
  whileTrue htest hbody index s hs :=
    (congruence_stays cx.scopes).loop (fun _ _ => trivial) (hrun htest) (hrun hbody)
      (onStack_truncate _).stays index n s hs

/-- **Known code asks for scopes of the tree only**, for as long as the fuel lasts. -/
theorem stays_exec (ht : cx.scopes.Sound) (n : Nat) {seg : Segment}
    (hk : Known cx.scopes seg.code) : Stays cx.scopes Ended fun _ => exec cx n seg := by
  have htick : ∀ i, Stays cx.scopes Unit fun _ => (Hooks.plain cx).before i := fun _ => stays_tick cx
  rw [exec_eq_execBy]
  exact (congruence_stays cx.scopes).execBy (fun _ _ => trivial) htick (upholds_stays ht) n hk

theorem stays_runWithin {p : Program} (ht : p.scopes.Sound) (hk : Known p.scopes p.code)
    (fuel : Nat) (limits : Limits) : Stays p.scopes Exit fun _ => runWithin fuel limits p := by
  let cx : Setup := ⟨limits, p.scopes⟩
  obtain ⟨owned, hget⟩ : ∃ owned, p.scopes.get? .root = some owned := ScopeTree.exists_get? ht.root
  have henv : Stays p.scopes EnvId fun _ => newEnv cx .root none :=
    (congruence_stays p.scopes).newEnv fun hnone => by simp [cx, Env.ofScope?, hget] at hnone
  have hexec : Stays cx.scopes Ended fun _ => exec cx fuel p.segment := stays_exec ht fuel hk
  refine stays_bind henv fun env => stays_bind (fun s hs => meets_of_eq rfl hs) fun _ => ?_
  exact stays_bind hexec ((congruence_stays p.scopes).finish fun s hs => meets_of_eq rfl hs)

/-- A run of a valid program misses no scope. -/
theorem result_ne_missingScope {p : Program} (hvalid : p.validate = .ok ()) (fuel : Nat)
    (limits : Limits) (room : Option Nat) (s : ScopeId) :
    (reportWithin fuel limits room p).result ≠ .error (.fault (.missingScope s)) := by
  obtain ⟨ht, hk⟩ := Program.known_of_validate hvalid
  have hrun : Meets Stop.InTree (runWithin fuel limits p) _ { output := { room } } :=
    stays_runWithin ht hk fuel limits _ ((knownCode p.scopes).holds_init _)
  unfold Meets at hrun
  unfold reportWithin
  split at hrun
  · rename_i heq
    rw [heq]
    intro h
    cases h
  · rename_i e s' heq
    rw [heq]
    intro h
    cases h
    exact hrun

end

end Machine

/-! ## Making C -/

namespace CUnit

/-- The work comes to a result with `Q`, or fails for another reason than a missing scope. -/
structure Stays {α : Type} (x : Gen α) (Q : α → Prop) : Prop where
  result : ∀ d a d', x d = .ok (a, d') → Q a
  inTree : ∀ d s, x d ≠ .error (.missingScope s)

section

variable {α β : Type} {x : Gen α} {f : α → Gen β} {P : α → Prop} {Q : β → Prop}

theorem stays_of_ok {g : Draft → α × Draft} (hx : ∀ d, x d = .ok (g d)) (hg : ∀ d, P (g d).1) :
    Stays x P where
  result d a d' h := by
    rw [hx] at h
    have hd := hg d
    rwa [Except.ok.inj h] at hd
  inTree d s h := by
    rw [hx] at h
    cases h

theorem stays_of_error {e : GenerateError} (hx : ∀ d, x d = .error e)
    (he : ∀ s, e ≠ .missingScope s) : Stays x P where
  result d a d' h := by
    rw [hx] at h
    cases h
  inTree d s h := by
    rw [hx] at h
    exact he s (Except.error.inj h)

theorem stays_pure {a : α} (ha : P a) : Stays (pure a) P :=
  stays_of_ok (fun _ => rfl) fun _ => ha

theorem Stays.bind (hx : Stays x P) (hf : ∀ a, P a → Stays (f a) Q) :
    Stays (x >>= f) Q where
  result d b d' h := by
    cases hd : x d with
    | ok r =>
      rw [gen_bind hd] at h
      exact (hf r.1 (hx.result d _ _ hd)).result _ _ _ h
    | error e =>
      rw [gen_bind_error hd] at h
      cases h
  inTree d s h := by
    cases hd : x d with
    | ok r =>
      rw [gen_bind hd] at h
      exact (hf r.1 (hx.result d _ _ hd)).inTree _ _ h
    | error e =>
      rw [gen_bind_error hd] at h
      cases h
      exact hx.inTree d s hd

theorem stays_lift {r : Except Malformed α} (hr : ∀ a, r = .ok a → P a) :
    Stays (lift r) P := by
  cases r with
  | ok a => exact stays_pure (hr a rfl)
  | error e =>
    refine stays_of_error (fun _ => rfl) fun s h => ?_
    cases h

theorem stays_modifyGet (g : Draft → α × Draft) : Stays (modifyGet g : Gen α) fun _ => True :=
  stays_of_ok (fun _ => rfl) fun _ => trivial

theorem stays_memoize (r : Region) (value : Rhs) : Stays (memoize r value) fun _ => True :=
  (stays_modifyGet _).bind fun _ _ => stays_pure trivial

end

variable {t : ScopeTree} {run : Segment → Region → Gen Region}

theorem stays_cut {seg : Segment} (hk : Known t seg.code) (sought : Terminator)
    (label : Option BlockLabel) : Stays (cut seg sought label) fun parts =>
      Known t parts.1.code ∧ Known t parts.2.code :=
  stays_lift fun _ hcut => hk.parts hcut

/-- The search of a sound tree from a scope of it has an answer. -/
theorem stays_storage (ht : t.Sound) {s : ScopeId} (hs : t.contains s = true) (name : String)
    (localOnly : Bool) : Stays (storage t s name localOnly) fun _ => True := by
  obtain ⟨answer, hanswer⟩ := ScopeTree.exists_resolve? ht hs name localOnly
  unfold storage
  rw [hanswer]
  cases answer with
  | ok found => exact stays_pure trivial
  | error e =>
    refine stays_of_error (fun _ => rfl) fun s h => ?_
    cases h

variable (hrun : ∀ seg r, Known t seg.code → Stays (run seg r) fun _ => True)

include hrun

/-- A function is made for a scope of the tree. -/
theorem stays_function {scope : ScopeId} (hscope : t.contains scope = true) {body : Segment}
    (hbody : Known t body.code) (name : FunctionName) :
    Stays (function t run name scope body) fun _ => True := by
  obtain ⟨owned, hget⟩ := ScopeTree.exists_get? (of_decide_eq_true hscope)
  unfold function
  simp only [hget]
  refine (hrun body {} hbody).bind fun r _ => ?_
  split
  · exact stays_pure trivial
  · exact stays_pure trivial
  · exact Stays.bind (P := fun _ => True) (stays_lift fun _ _ => trivial) fun _ _ =>
      stays_pure trivial

/-- **Making C of an instruction asks for scopes of the tree only**, and the code behind it is
known. -/
theorem stays_step (ht : t.Sound) {i : Instruction} {after : Segment}
    (hk : Known t (i :: after.code)) (r : Region) :
    Stays (step t run i after r) fun x => Known t x.2.code := by
  have hafter := hk.tail
  have memoized : ∀ (r : Region) (value : Rhs) {rest : Segment}, Known t rest.code →
      Stays (do return (← memoize r value, rest)) fun x => Known t x.2.code :=
    fun r value _ hrest => (stays_memoize r value).bind fun _ _ => stays_pure hrest
  have lifted : ∀ {α : Type} (x : Except Malformed α), Stays (lift x) fun _ => True :=
    fun _ => stays_lift fun _ _ => trivial
  obtain ⟨op, scope⟩ := i
  cases op with
  | pushInt | pushNil | pushTrue | pushFalse | pushSelf | pushArg => exact stays_pure hafter
  | pushString | pushSymbol => exact (stays_modifyGet _).bind fun _ _ => stays_pure hafter
  | pop | dup => exact (lifted _).bind fun _ _ => stays_pure hafter
  | getLocal name =>
    exact (stays_storage ht hk.scope name false).bind fun place _ => memoized r _ hafter
  | setLocal name localOnly =>
    refine (lifted _).bind fun popped _ => ?_
    exact (stays_storage ht hk.scope name localOnly).bind fun place _ => stays_pure hafter
  | getGlobal name => exact (stays_modifyGet _).bind fun _ _ => memoized r _ hafter
  | setGlobal name =>
    refine (lifted _).bind fun popped _ => ?_
    exact (stays_modifyGet _).bind fun _ _ => stays_pure hafter
  | checkArgs | breakOut | halt | setVisibility => exact stays_pure hafter
  | send message argc receiver withBlock =>
    have optional : ∀ (wanted : Bool) (r : Region), Stays (do
        if wanted then
          let popped ← lift (r.pop (after.start - 1))
          return (some popped.1, popped.2)
        else return (none, r)) fun _ => True := by
      intro wanted r
      cases wanted with
      | true => exact (lifted _).bind fun _ _ => stays_pure trivial
      | false => exact stays_pure trivial
    refine (optional withBlock r).bind ?_
    rintro ⟨block, r⟩ -
    refine (lifted _).bind ?_
    rintro ⟨args, r⟩ -
    refine (optional receiver r).bind ?_
    rintro ⟨target, r⟩ -
    exact (stays_modifyGet _).bind fun _ _ => memoized r _ hafter
  | yield argc => exact (lifted _).bind fun popped _ => memoized popped.2 _ hafter
  | ifTrue =>
    refine (lifted _).bind ?_
    rintro ⟨condition, r⟩ -
    refine (stays_cut hafter _ _).bind ?_
    rintro ⟨yes, mid⟩ ⟨hyes, hmid⟩
    refine (stays_cut hmid _ _).bind ?_
    rintro ⟨no, rest⟩ ⟨hno, hrest⟩
    refine (hrun yes _ hyes).bind fun yesArm _ => (hrun no _ hno).bind fun noArm _ => ?_
    have hget : Stays (get : Gen Draft) fun _ => True :=
      stays_of_ok (fun _ => rfl) fun _ => trivial
    exact hget.bind fun d _ => (stays_modifyGet _).bind fun _ _ => stays_pure hrest
  | whileTrue =>
    refine (stays_cut hafter _ _).bind ?_
    rintro ⟨test, mid⟩ ⟨htest, hmid⟩
    refine (stays_cut hmid _ _).bind ?_
    rintro ⟨body, rest⟩ ⟨hbody, hrest⟩
    refine (hrun test _ htest).bind fun testPart _ => (lifted _).bind ?_
    rintro ⟨condition, testPart⟩ -
    exact (hrun body _ hbody).bind fun bodyPart _ => stays_pure hrest
  | defineMethod name home =>
    refine (stays_cut hafter _ _).bind ?_
    rintro ⟨body, rest⟩ ⟨hbody, hrest⟩
    refine (stays_modifyGet _).bind fun k _ => ?_
    refine (stays_function hrun (hk.bodyScope rfl) hbody _).bind fun f _ => ?_
    refine (stays_modifyGet _).bind fun symbol _ => (stays_modifyGet _).bind fun _ _ => ?_
    exact stays_pure hrest
  | defineBlock home =>
    refine (stays_cut hafter _ _).bind ?_
    rintro ⟨body, rest⟩ ⟨hbody, hrest⟩
    refine (stays_modifyGet _).bind fun k _ => ?_
    refine (stays_function hrun (hk.bodyScope rfl) hbody _).bind fun f _ => ?_
    exact (stays_modifyGet _).bind fun _ _ => memoized r _ hrest
  | orElse | loopBody | endBlock => exact stays_lift fun _ h => by cases h
  | ret => exact (lifted _).bind fun popped _ => stays_pure hafter
  | next withValue =>
    cases withValue with
    | true => exact (lifted _).bind fun popped _ => stays_pure hafter
    | false => exact stays_pure hafter

omit hrun

/-- **Making C of known code asks for scopes of the tree only.** -/
theorem stays_generateWithin (ht : t.Sound) (n : Nat) (seg : Segment) (r : Region)
    (hk : Known t seg.code) : Stays (generateWithin t n seg r) fun _ => True := by
  induction n generalizing seg r with
  | zero => exact stays_pure trivial
  | succ n ih =>
    obtain ⟨start, _ | ⟨i, rest⟩⟩ := seg
    · exact stays_pure trivial
    · refine (stays_step ih ht hk r).bind ?_
      rintro ⟨r, after⟩ hafter
      exact ih after r hafter

/-- The generator misses no scope of a valid program. -/
theorem generate_ne_missingScope {p : Program} (hvalid : p.validate = .ok ())
    (settings : Settings) (s : ScopeId) : generate settings p ≠ .error (.missingScope s) := by
  obtain ⟨ht, hk⟩ := Program.known_of_validate hvalid
  have hroot : p.scopes.contains .root = true := decide_eq_true ht.root
  have hcode : Known p.scopes p.segment.code := hk
  have hmain := stays_function (stays_generateWithin ht p.code.length) hroot hcode .main
  intro h
  unfold generate at h
  dsimp only at h
  cases hd : (function p.scopes (generateWithin p.scopes p.code.length) .main .root p.segment).run
      {} with
  | ok made =>
    rw [hd] at h
    cases h
  | error e =>
    rw [hd] at h
    cases h
    exact hmain.inTree _ s hd

end CUnit

/-! ## Programs -/

/-- **Validation makes every access to a scope succeed.** From a scope of a valid tree, the search
for the owner of a declaration and the search for a variable end, whatever bounds them; what they
find is in the tree, and is reached by outer links. The machine and the generator ask a valid
program only for scopes that it has. -/
theorem valid_scope_accesses_in_range :
    (∀ t : ScopeTree, t.validate = .ok () → ∀ s, t.contains s = true → t.Answers s) ∧
    ∀ p : Program, p.validate = .ok () → ∀ s : ScopeId,
      (∀ fuel limits room, (Machine.reportWithin fuel limits room p).result ≠
        .error (.fault (.missingScope s))) ∧
      ∀ settings, CUnit.generate settings p ≠ .error (.missingScope s) := by
  constructor
  · intro t hvalid s hs
    exact ScopeTree.answers_of_sound (ScopeTree.validate_eq_ok_iff.mp hvalid) hs
  · intro p hvalid s
    constructor
    · intro fuel limits room
      exact Machine.result_ne_missingScope hvalid fuel limits room s
    · intro settings
      exact CUnit.generate_ne_missingScope hvalid settings s

/-- A branch that hands a block to a method, which calls it. The block reads a variable of the top
level through the scope of the branch, which owns none. -/
def blockInBranch : Program where
  code := [⟨.pushInt 1, .root⟩, ⟨.setLocal "n" false, .root⟩, ⟨.pushTrue, .root⟩, ⟨.ifTrue, .root⟩,
    ⟨.defineMethod "call" ⟨3⟩, ⟨1⟩⟩, ⟨.yield 0, ⟨3⟩⟩, ⟨.endBlock .method, ⟨3⟩⟩, ⟨.pop, ⟨1⟩⟩,
    ⟨.defineBlock ⟨2⟩, ⟨1⟩⟩, ⟨.getLocal "n", ⟨2⟩⟩, ⟨.endBlock .block, ⟨2⟩⟩,
    ⟨.send "call" 0 false true, ⟨1⟩⟩, ⟨.orElse, .root⟩, ⟨.pushNil, .root⟩, ⟨.endBlock .cond, .root⟩]
  scopes := ⟨#[{ vars := .ofList [("n", 0)] },
    { hoist := true, block := true, outer := some .root },
    { block := true, outer := some ⟨1⟩ }, { outer := some .root }]⟩

/-- The same code, with the top level for its only scope. -/
def blockWithoutBranch : Program :=
  { blockInBranch with scopes := ⟨blockInBranch.scopes.scopes.take 1⟩ }

/-- The program has the scopes that it asks for. With fewer of them it is not valid, and both the
machine and the generator miss the scope of the method. -/
theorem blockInBranch_accesses_in_range :
    blockInBranch.validate = .ok () ∧ blockInBranch.scopes.Answers ⟨2⟩ ∧
    blockInBranch.scopes.resolve? ⟨2⟩ "n" false = some (.ok ⟨.root, 1, 0⟩) ∧
    (∀ fuel limits, (Machine.reportWithin fuel limits none blockInBranch).result ≠
      .error (.fault (.missingScope ⟨3⟩))) ∧
    CUnit.generate {} blockInBranch ≠ .error (.missingScope ⟨3⟩) ∧
    blockWithoutBranch.validate = .error ⟨4, .unknownScope ⟨1⟩, none⟩ ∧
    (Machine.reportWithin 20 {} none blockWithoutBranch).result =
      .error (.fault (.missingScope ⟨3⟩)) ∧
    CUnit.generate {} blockWithoutBranch = .error (.missingScope ⟨3⟩) := by
  have hvalid : blockInBranch.validate = .ok () := by decide +kernel
  obtain ⟨hanswers, haccesses⟩ := valid_scope_accesses_in_range
  obtain ⟨hruns, hmade⟩ := haccesses _ hvalid ⟨3⟩
  refine ⟨hvalid, ?_, ?_, fun fuel limits => hruns fuel limits none, hmade {}, ?_, ?_, rfl⟩
  · exact hanswers _ (by decide +kernel) _ (by decide +kernel)
  · decide +kernel
  · decide +kernel
  · decide +kernel

end StackCode
