import StackCode.Proofs.InstructionRuns

/-!
# Translated code does what the machine does

The main result of this module is `realizes_of_translates`: when a region has done what the machine
did so far, and code makes of it another region, then that region has done what the machine does when
it has run the code as well. It is proved by induction on the derivation.

* The arms of a conditional leave their operands in different places. They are merged: each arm ends
  with assignments to temps that have been declared before the conditional (`follows_cond`).
* A loop is related round by round. At the end of a round the temps are gone that it declared, and
  the operands from before the loop have their values still (`follows_loop`).
* The bodies of methods and blocks become functions, and are not executed here.
-/

namespace StackCode.Native

open CUnit (Operand Rhs Stmt Region Draft Aligned Translates FunctionName)
open Machine (State Stop Ended Setup WellNested thenDo proceed)

variable {u : CUnit} {t : ScopeTree} {cx : Setup} {k : Nat} {c : Call} {s s' : State}
  {m m' : Memory} {v : Value} {o : Operand} {a : Around} {hi : Nat} {before : Temps}
  {p p' q : Point} {r r' : Region} {d d' : Draft} {K : Partial Stop State Ended}
  {code tail : List Instruction} {values : List Value} {below held : List Operand}
  {N : State → Memory → Prop}

/-! ## Code in sequence -/

theorem bind_thenDo_nil (K : Partial Stop State Ended) (s : State) :
    K.bind (thenDo cx []) s = K s := by
  unfold Partial.bind
  rcases K s with _ | ⟨⟨_ | signal, stop⟩, s'⟩ | ⟨e, s'⟩
  · rfl
  · exact Machine.den_nil stop s'
  · rfl
  · rfl

theorem bind_thenDo_append (hcx : cx.Unlimited) (hc : WellNested code) (tail : List Instruction)
    (K : Partial Stop State Ended) :
    K.bind (thenDo cx (code ++ tail)) = (K.bind (thenDo cx code)).bind (thenDo cx tail) := by
  rw [Partial.bind_assoc]
  congr 1
  funext e s
  obtain ⟨_ | signal, stop⟩ := e
  · exact congrFun (Machine.den_append hcx hc stop tail) s
  · rfl

/-- Where the code behind a conditional or a loop starts does not matter. -/
theorem rel_proceed {y : Option (EStateM.Result Interrupt Memory Flow)}
    (h : Option.Rel (Ends u t c a N) (K s) y) (stop : Nat) :
    Option.Rel (Ends u t c a N) (K.bind (fun e => proceed cx (e.1, ⟨stop, []⟩)) s) y := by
  unfold Partial.bind
  revert h
  generalize K s = x
  rintro (h | _)
  · cases h with
    | @next s m _ h =>
      show Option.Rel _ (Machine.den cx ⟨stop, []⟩ s) _
      rw [Machine.den_nil]
      exact .some (.next h)
    | leaves h =>
      cases h with
      | breakLoop hin h => exact .some (.leaves (.breakLoop hin h))
      | continueLoop hin h => exact .some (.leaves (.continueLoop hin h))
      | ret hb h => exact .some (.leaves (.ret hb h))
      | finish hb h => exact .some (.leaves (.finish hb h))
      | halt h => exact .some (.leaves (.halt h))
      | error he h => exact .some (.leaves (.error he h))
  · exact .none

/-! ## Many temps at once -/

/-- The temps when each of `ns` has its value. -/
def Temps.setAll (temps : Temps) : List Nat → List Value → Temps
  | n :: ns, v :: vs => (temps.set n v).setAll ns vs
  | _, _ => temps

section

variable {temps : Temps} {ns : List Nat} {vs : List Value} {os : List Operand}

theorem Temps.setAll_of_notMem {n : Nat} (h : n ∉ ns) : temps.setAll ns vs n = temps n := by
  induction ns generalizing temps vs with
  | nil => rfl
  | cons j ns ih =>
    rw [List.mem_cons, not_or] at h
    cases vs with
    | nil => rfl
    | cons v vs =>
      rw [setAll, ih h.2]
      exact if_neg h.1

theorem Temps.isSome_setAll {n : Nat} (h : n ∈ ns) (hl : ns.length = vs.length) :
    (temps.setAll ns vs n).isSome := by
  induction ns generalizing temps vs with
  | nil => cases h
  | cons j ns ih =>
    cases vs with
    | nil => cases hl
    | cons v vs =>
      by_cases hn : n ∈ ns
      · exact ih hn (Nat.succ.inj hl)
      · obtain rfl := (List.mem_cons.mp h).resolve_right hn
        rw [setAll, setAll_of_notMem hn, set, if_pos rfl]
        rfl

theorem Values.leaving (h : Values u c temps os vs) (outer : Temps)
    (hsome : ∀ n, .temp n ∈ os → (outer n).isSome) : Values u c (temps.leaving outer) os vs := by
  induction h with
  | nil => exact .nil
  | @cons o v os vs ho _ ih =>
    refine .cons ?_ (ih fun n hn => hsome n (List.mem_cons_of_mem _ hn))
    cases o with
    | literal a => exact ho
    | temp n =>
      obtain ⟨w, hw⟩ := Option.isSome_iff_exists.mp (hsome n (List.mem_cons_self ..))
      show (outer n).bind (fun _ => temps n) = some v
      rw [hw]
      exact ho

/-- The temps when `ns` have been declared. -/
def Temps.nils (temps : Temps) (ns : List Nat) : Temps :=
  temps.setAll ns (.replicate ns.length .nil)

theorem Temps.isSome_nils (temps : Temps) {n : Nat} (h : n ∈ ns) : (temps.nils ns n).isSome :=
  isSome_setAll h List.length_replicate.symm

theorem Temps.nils_of_notMem {n : Nat} (h : n ∉ ns) : temps.nils ns n = temps n :=
  setAll_of_notMem h

theorem Temps.keeps_nils (h : ∀ n ∈ ns, temps n = none) : temps.Keeps (temps.nils ns) := by
  intro n v hn
  rw [nils_of_notMem fun hmem => absurd ((h n hmem).symm.trans hn) (by simp)]
  exact hn

theorem values_setAll (hn : ns.Nodup) (hl : ns.length = vs.length) :
    Values u c (temps.setAll ns vs) (ns.map Operand.temp) vs := by
  induction ns generalizing temps vs with
  | nil =>
    cases vs with
    | nil => exact .nil
    | cons => cases hl
  | cons n ns ih =>
    rw [List.nodup_cons] at hn
    cases vs with
    | nil => cases hl
    | cons v vs =>
      refine .cons ?_ (ih hn.2 (Nat.succ.inj hl))
      show (temps.set n v).setAll ns vs n = some v
      rw [Temps.setAll_of_notMem hn.1]
      exact if_pos rfl

theorem den_declareNils (hn : ns.Nodup) (hnone : ∀ n ∈ ns, m.temps n = none) (cx : Context) :
    den u k cx (ns.map Stmt.declareNil) m =
      some (.ok .next { m with temps := m.temps.nils ns }) := by
  induction ns generalizing m with
  | nil => exact den_nil m
  | cons n ns ih =>
    rw [List.nodup_cons] at hn
    have hone : den u k cx [.declareNil n] m =
        some (.ok .next { m with temps := m.temps.set n .nil }) :=
      den_act (fun n => by simp only [exec]) (declare_eq (hnone n (List.mem_cons_self ..)) .nil)
    rw [List.map_cons, ← List.singleton_append, den_append, Partial.bind_of_eq_ok hone]
    refine ih hn.2 fun j hj => ?_
    show (if j = n then _ else m.temps j) = none
    rw [if_neg fun he : j = n => hn.1 (he ▸ hj)]
    exact hnone j (List.mem_cons_of_mem _ hj)

theorem den_assigns (ns : List Nat) (hl : ns.length = os.length) (hv : Values u c m.temps os vs)
    (hsome : ∀ n ∈ ns, (m.temps n).isSome) (hother : ∀ n ∈ ns, Operand.temp n ∉ os) :
    den u k c.context ((ns.zip os).map fun (n, o) => Stmt.assign n o) m =
      some (.ok .next { m with temps := m.temps.setAll ns vs }) := by
  induction ns generalizing m os vs with
  | nil => exact den_nil m
  | cons n ns ih =>
    cases hv with
    | nil => cases hl
    | @cons o v os vs ho hrest =>
      obtain ⟨old, hold⟩ := Option.isSome_iff_exists.mp (hsome n (List.mem_cons_self ..))
      have hone : den u k c.context [.assign n o] m =
          some (.ok .next { m with temps := m.temps.set n v }) :=
        den_act (fun n => by simp only [exec])
          ((bind_eq_of_ok (operand_eq ho)).trans (assign_eq hold v))
      have hrest' : Values u c (m.temps.set n v) os vs :=
        (values_set_iff fun hn =>
          hother n (List.mem_cons_self ..) (List.mem_cons_of_mem _ hn)).mpr hrest
      rw [List.zip_cons_cons, List.map_cons, ← List.singleton_append, den_append,
        Partial.bind_of_eq_ok hone]
      refine ih (Nat.succ.inj hl) hrest' (fun j hj => ?_) fun j hj hn =>
        hother j (List.mem_cons_of_mem _ hj) (List.mem_cons_of_mem _ hn)
      show (if j = n then some v else m.temps j).isSome = true
      split
      · rfl
      · exact hsome j (List.mem_cons_of_mem _ hj)

end

/-! ## Conditionals -/

/-- The code does what the statements do that it adds to the region. -/
def Realizes (u : CUnit) (t : ScopeTree) (cx : Setup) (k : Nat) (c : Call) (p : Point) (r : Region)
    (d : Draft) (code : List Instruction) (q : Point) (r' : Region) (d' : Draft) : Prop :=
  ∀ ⦃a : Around⦄ ⦃hi : Nat⦄ ⦃before : Temps⦄ ⦃held : List Operand⦄ ⦃K : Partial Stop State Ended⦄
    ⦃s : State⦄ ⦃m : Memory⦄, Situated u c a before p r held → d'.nextTemp ≤ hi →
    Follows u t k c a hi before m (K s) p r d →
    Follows u t k c a hi before m (K.bind (thenDo cx code) s) q r' d'

/-- The code of a branch, or of a part of a loop, and the statements of its region. -/
theorem Realizes.rel (h : Realizes u t cx k c p { stack := below } d code q r' d')
    (hsit : Situated u c a m.temps p { stack := below } held) (hp : p.awaiting = false)
    (hhi : d'.nextTemp ≤ hi) (hruns : Runs u t c values s m)
    (hvalues : Values u c m.temps below values)
    (hfresh : ∀ n, d.nextTemp ≤ n → n < hi → m.temps n = none) (start : Nat) :
    Option.Rel (Ends u t c a (At u t c hi m.temps q r' d')) (Machine.den cx ⟨start, code⟩ s)
      (den u k c.context r'.statements m) :=
  h (K := fun s => some (.ok (none, start) s)) hsit hhi
    (follows_start (r := { stack := below }) start (at_start hruns hvalues hp hfresh))

theorem Situated.move (h : Situated u c a before p r held) (haligned : Aligned p' r' held)
    (hsite : p'.site = p.site) {temps : Temps} (hkeeps : before.Keeps temps) :
    Situated u c a temps p' r' held where
  aligned := haligned
  values := h.values.keeps hkeeps
  site := hsite.trans h.site
  keeps := h.keeps.trans hkeeps
  home := hsite ▸ h.home

section

variable {arm : Region} {ns : List Nat} {vs : List Value} {keep : Nat} {temps : Temps} {e : Draft}
  {hi' : Nat}

/-- Behind the braces of an arm those temps are seen that were there before, and `ns`. -/
theorem Temps.keeps_merged {inner : Temps} (h : ∀ n ∈ ns, temps n = none)
    (hinner : (temps.nils ns).Keeps inner) (vs : List Value) :
    temps.Keeps ((inner.setAll ns vs).leaving (temps.nils ns)) := by
  intro n v hn
  have hmem : n ∉ ns := fun hmem => absurd ((h n hmem).symm.trans hn) (by simp)
  have hnils := keeps_nils h n v hn
  rw [leaving, hnils]
  show inner.setAll ns vs n = some v
  rw [setAll_of_notMem hmem]
  exact hinner n v hnils

/-- The arm of a conditional has come to its end. Its last operands are assigned to the temps `ns`;
the others are what they were before the conditional. -/
theorem exists_merged (h : At u t c hi' (temps.nils ns) q arm e s m) (hnodup : ns.Nodup)
    (hnone : ∀ n ∈ ns, temps n = none) (hother : ∀ n ∈ ns, Operand.temp n ∉ arm.stack)
    (hbelow : Values u c temps below vs) (hlength : arm.stack.length = ns.length + keep)
    (hkeep : keep ≤ CUnit.sharedHeight arm.stack below) (hp : p'.awaiting = false)
    (hr : r'.stack = (ns.map Operand.temp).reverse ++ below.drop (below.length - keep))
    (hcode : ∀ n value rest, r'.code ≠ .declare n value :: rest) (hkeeps : before.Keeps temps)
    (hfresh : ∀ n, d'.nextTemp ≤ n → n < hi → n ∉ ns ∧ temps n = none) :
    ∃ m', den u k c.context
        ((ns.zip (arm.stack.take ns.length).reverse).map fun (n, o) => Stmt.assign n o) m =
        some (.ok .next m') ∧
      At u t c hi before p' r' d' s { m' with temps := m'.temps.leaving (temps.nils ns) } := by
  obtain ⟨all, hruns, hall, -⟩ := h.operands
  rw [← List.take_append_drop ns.length arm.stack] at hall
  obtain ⟨top, rest, rfl, htop, hrest⟩ := hall.exists_append
  have htake : (arm.stack.take ns.length).length = ns.length := by
    rw [List.length_take, hlength]
    omega
  -- what both arms share with the operands before them has the values that it had
  have hshared : arm.stack.drop ns.length = below.drop (below.length - keep) := by
    rw [← CUnit.drop_sharedHeight hkeep, hlength, Nat.add_sub_cancel]
  have hmerged := Temps.keeps_merged hnone h.keeps top.reverse
  have hdrop : Values u c temps (below.drop (below.length - keep))
      (vs.drop (below.length - keep)) := List.forall₂_drop _ hbelow
  rw [hshared] at hrest
  obtain rfl := hrest.unique (hdrop.keeps ((Temps.keeps_nils hnone).trans h.keeps))
  have hassign := den_assigns (u := u) (k := k) ns (by rw [List.length_reverse, htake])
    htop.reverse
    (fun n hn => by
      obtain ⟨w, hw⟩ := Option.isSome_iff_exists.mp (temps.isSome_nils hn)
      rw [h.keeps n w hw]
      rfl)
    (fun n hn hmem => hother n hn (List.mem_of_mem_take (List.mem_reverse.mp hmem)))
  refine ⟨_, hassign, ⟨top ++ vs.drop (below.length - keep), ?_, ?_, fun hawait => ?_⟩,
    hkeeps.trans hmerged, fun n hn hlt => ?_, fun n value rest heq => absurd heq (hcode n value rest)⟩
  · exact hruns.withTemps _
  · rw [hr]
    refine Values.append ?_ (hdrop.keeps hmerged)
    have hset : Values u c (m.temps.setAll ns top.reverse) (ns.map Operand.temp) top.reverse :=
      values_setAll hnodup (by rw [List.length_reverse, ← htop.length_eq, htake])
    have hleft := hset.leaving (temps.nils ns) fun n hn => by
      obtain ⟨j, hj, heq⟩ := List.mem_map.mp hn
      cases heq
      exact temps.isSome_nils hj
    have hrev := hleft.reverse
    rwa [List.reverse_reverse] at hrev
  · exact absurd (hp.symm.trans hawait) (by decide)
  · obtain ⟨hmem, hnone'⟩ := hfresh n hn hlt
    show Option.bind (temps.nils ns n) _ = none
    rw [Temps.nils_of_notMem hmem, hnone']
    rfl

/-- One arm of a conditional, in its braces, behind the declarations of the temps `ns`. -/
theorem rel_arm {e' : Draft} {next : Nat}
    (h : Realizes u t cx k c p { stack := below } e code q arm e')
    (hsit : Situated u c a before p { stack := below } held) (hawaiting : p.awaiting = false)
    (hruns : Runs u t c vs s m) (hvs : Values u c m.temps below vs) (hkeeps : before.Keeps m.temps)
    (hfresh : ∀ n, e.nextTemp ≤ n → n < hi → m.temps n = none) (he : e.nextTemp ≤ next)
    (he' : e'.nextTemp ≤ next) (hnodup : ns.Nodup)
    (hns : ∀ n ∈ ns, next ≤ n ∧ n < next + ns.length) (hnext : d'.nextTemp = next + ns.length)
    (hhi : d'.nextTemp ≤ hi) (hbounded : arm.Bounded e')
    (hlength : arm.stack.length = ns.length + keep)
    (hkeep : keep ≤ CUnit.sharedHeight arm.stack below) (hp : p'.awaiting = false)
    (hr : r'.stack = (ns.map Operand.temp).reverse ++ below.drop (below.length - keep))
    (hcode : ∀ n value rest, r'.code ≠ .declare n value :: rest) (start : Nat) :
    Option.Rel (Ends u t c a (At u t c hi before p' r' d')) (Machine.den cx ⟨start, code⟩ s)
      ((den u k c.context (CUnit.assignTop ns arm).statements
        { m with temps := m.temps.nils ns }).map (closeBraces (m.temps.nils ns))) := by
  have hnone : ∀ n ∈ ns, m.temps n = none := fun n hn => by
    have := hns n hn
    exact hfresh n (by omega) (by omega)
  have hnils := Temps.keeps_nils hnone
  have hruns' : Runs u t c vs s { m with temps := m.temps.nils ns } := hruns.withTemps _
  have hnew : ∀ n, e.nextTemp ≤ n → n < next → m.temps.nils ns n = none := fun n hn hlt => by
    rw [Temps.nils_of_notMem fun hmem => by have := hns n hmem; omega]
    exact hfresh n hn (by omega)
  have hrel := h.rel (hsit.move hsit.aligned rfl (hkeeps.trans hnils)) hawaiting he' hruns'
    (hvs.keeps hnils) hnew start
  rw [CUnit.statements_assignTop]
  refine rel_closeBraces (rel_append_right hrel fun s m' hat => ?_)
    (hsit.keeps.trans (hkeeps.trans hnils)) fun _ _ h => h
  refine exists_merged hat hnodup hnone (fun n hn hmem => ?_) hvs hlength hkeep hp hr hcode hkeeps
    fun n hn hlt => ⟨fun hmem => ?_, hfresh n (by omega) hlt⟩
  · have := hbounded n hmem
    have := hns n hn
    omega
  · have := hns n hmem
    omega

end

section

variable {i j l : Instruction} {yes no : List Instruction} {y n : Point} {yesArm noArm : Region}
  {d₁ d₂ : Draft}

theorem mem_mergeTemps {next x : Nat} (hx : x ∈ CUnit.mergeTemps next below yesArm noArm) :
    next ≤ x ∧ x < next + CUnit.live below yesArm noArm := by
  simp only [CUnit.mergeTemps, List.mem_map, List.mem_range] at hx
  omega

theorem nodup_mergeTemps (next : Nat) : (CUnit.mergeTemps next below yesArm noArm).Nodup :=
  List.nodup_range.map fun _ _ => Nat.add_left_cancel

theorem statements_joined (r : Region) (o : Operand) (next : Nat) (yesArm noArm : Region) :
    (r.joined o next yesArm noArm).statements = r.statements ++
      ((CUnit.mergeTemps next r.stack yesArm noArm).map Stmt.declareNil ++
        [Stmt.ifElse o
          (CUnit.assignTop (CUnit.mergeTemps next r.stack yesArm noArm) yesArm).statements
          (CUnit.assignTop (CUnit.mergeTemps next r.stack yesArm noArm) noArm).statements]) := by
  simp [Region.joined, Region.statements]

/-- **A conditional.** -/
theorem follows_cond (hag : Agreed u t cx k c) (hsit : Situated u c a before p r held)
    (hbound : r.Bounded d) (ha : (placement t).admits p i = true) (hi : i.op = .ifTrue)
    (hj : j.op = .orElse) (hl : l.op = .endBlock .cond) (hs : r.stack = o :: below)
    (hy : Translates t (p.atHeight (p.height - 1)) { stack := below } d yes y yesArm d₁)
    (hn : Translates t (p.atHeight (p.height - 1)) { stack := below } d₁ no n noArm d₂)
    (heq : n.height = y.height)
    (hyes : Realizes u t cx k c (p.atHeight (p.height - 1)) { stack := below } d yes y yesArm d₁)
    (hno : Realizes u t cx k c (p.atHeight (p.height - 1)) { stack := below } d₁ no n noArm d₂)
    {top : Nat} (htop : (d₂.addTemps (CUnit.live below yesArm noArm)).nextTemp ≤ top)
    (hK : Follows u t k c a top before m (K s) p r d) :
    Follows u t k c a top before m (K.bind (thenDo cx (i :: (yes ++ j :: (no ++ [l])))) s)
      (p.atHeight y.height) ({ r with stack := below }.joined o d₂.nextTemp yesArm noArm)
      (d₂.addTemps (CUnit.live below yesArm noArm)) := by
  have hdy := hy.grows.temps
  have hdn := hn.grows.temps
  have htop' : d₂.nextTemp + CUnit.live below yesArm noArm ≤ top := htop
  have harm := hsit.aligned.arm ha hi hs
  have hyl := (hy.aligned harm).length
  have hnl := (hn.aligned harm).length
  have hbelow : ({ stack := below } : Region).Bounded d := fun x hx =>
    hbound x (hs ▸ List.mem_cons_of_mem o hx)
  have hby := hy.bounded hbelow
  have hbn := hn.bounded fun x hx => Nat.lt_of_lt_of_le (hbelow x hx) hdy
  refine hK.extend _ (statements_joined _ _ _ _ _) fun start s m hat => ?_
  obtain ⟨all, hruns, hall, -⟩ := hat.operands
  rw [hs] at hall
  cases hall with
  | @cons _ w _ vs ho hvs =>
    have hstack : s.stack = w :: (vs ++ c.below) := hruns.stack
    rw [Machine.den_cond hag.unlimited hi hj hl ⟨_, _, _, hy.nested⟩ ⟨_, _, _, hn.nested⟩ hstack
      (hruns.base_le vs)]
    refine rel_proceed ?_ _
    -- the temps for the arms are new
    let ns := CUnit.mergeTemps d₂.nextTemp below yesArm noArm
    have hlive : ns.length = CUnit.live below yesArm noArm := CUnit.length_mergeTemps _ _ _ _
    have hns : ∀ x ∈ ns, d₂.nextTemp ≤ x ∧ x < d₂.nextTemp + ns.length := fun x hx => by
      rw [hlive]
      exact mem_mergeTemps hx
    have hnone : ∀ x ∈ ns, m.temps x = none := fun x hx => by
      have := hns x hx
      exact hat.fresh x (by omega) (by omega)
    have hruns' : Runs u t c vs { s.ticked with stack := vs ++ c.below } m :=
      hruns.restack ⟨_, rfl⟩ ⟨m.temps, rfl⟩
    have hmerged : ({ r with stack := below }.joined o d₂.nextTemp yesArm noArm).stack =
        (ns.map Operand.temp).reverse ++
          below.drop (below.length - CUnit.kept below yesArm noArm) := rfl
    have hcode : ∀ x value rest, ({ r with stack := below }.joined o d₂.nextTemp yesArm noArm).code ≠
        .declare x value :: rest := fun _ _ _ => nofun
    show Option.Rel _ _ (den u k c.context (ns.map Stmt.declareNil ++ _) m)
    rw [den_append, Partial.bind_of_eq_ok (den_declareNils (nodup_mergeTemps _) hnone _)]
    have htest : operand? u c.context ({ m with temps := m.temps.nils ns } : Memory).temps o =
        some w := operand?_of_keeps (Temps.keeps_nils hnone) ho
    show Option.Rel _ _ (den u k c.context [.ifElse o _ _] { m with temps := m.temps.nils ns })
    rw [den_ifElse htest]
    have hsit' := hsit.move harm rfl (.refl before)
    have hkept := CUnit.length_live below (hnl.trans (heq.trans hyl.symm))
    rw [← hlive] at hkept
    cases w.isTruthy with
    | true =>
      exact rel_arm hyes hsit' rfl hruns' hvs hat.keeps hat.fresh (Nat.le_trans hdy hdn) hdn
        (nodup_mergeTemps _) hns (by rw [hlive]; rfl) htop hby hkept (Nat.min_le_left _ _) rfl
        hmerged hcode (start + 1)
    | false =>
      exact rel_arm hno hsit' rfl hruns' hvs hat.keeps
        (fun x hx hlt => hat.fresh x (Nat.le_trans hdy hx) hlt) hdn (Nat.le_refl _)
        (nodup_mergeTemps _) hns (by rw [hlive]; rfl) htop hbn
        (hnl.trans (heq.trans (hyl.symm.trans hkept))) (Nat.min_le_right _ _) rfl hmerged hcode _

end

/-! ## Loops -/

/-- What a loop comes to: it leaves the operands and temps that there were before it. -/
inductive LoopEnds (u : CUnit) (t : ScopeTree) (c : Call) (a : Around) (values : List Value)
    (temps : Temps) :
    EStateM.Result Stop State (Option Signal) → EStateM.Result Interrupt Memory Flow → Prop
  | done {s : State} {m : Memory} (h : Runs u t c values s m) (ht : m.temps = temps) :
      LoopEnds u t c a values temps (.ok none s) (.ok .next m)
  | ret {s : State} {m : Memory} {v : Value} (hb : a.site.body ≠ .block) (h : Left u t c a s m) :
      LoopEnds u t c a values temps (.ok (some (.ret v)) s) (.ok (.ret v) m)
  | finish {s : State} {m : Memory} {v : Value} (hb : a.site.body = .block)
      (h : Left u t c a s m) :
      LoopEnds u t c a values temps (.ok (some (.next (some v))) s) (.ok (.ret v) m)
  | halt {s : State} {m : Memory} (h : m.output = s.output) :
      LoopEnds u t c a values temps (.ok (some .halt) s) (.error .exited m)
  | error {s : State} {m : Memory} {e : Stop} {e' : Interrupt} (he : SameError e e')
      (h : m.output = s.output) : LoopEnds u t c a values temps (.error e s) (.error e' m)

/-- Where a round starts: all operands and temps are those from before the loop. -/
def Starts (u : CUnit) (t : ScopeTree) (c : Call) (values : List Value) (temps : Temps) (s : State)
    (m : Memory) : Prop :=
  Runs u t c values s m ∧ m.temps = temps

section

variable {inside : Around}

/-- The end of a round cuts the operands down, and the temps of the round are gone. -/
theorem Left.starts (h : Left u t c inside s m) :
    Starts u t c inside.held inside.temps (s.truncate (inside.held ++ c.below).length)
      { m with temps := m.temps.leaving inside.temps } := by
  obtain ⟨⟨more, hruns⟩, hkeeps⟩ := h
  refine ⟨hruns.restack ⟨s.steps, ?_⟩ ⟨_, rfl⟩, Temps.leaving_of_keeps hkeeps⟩
  unfold State.truncate
  rw [hruns.stack, List.append_assoc, List.length_append, Nat.add_sub_cancel, List.drop_left]

/-- What is left inside a loop is left around it. -/
theorem Left.outside (h : Left u t c inside s m) (hheld : ∃ more, inside.held = more ++ a.held)
    (hkeeps : a.temps.Keeps inside.temps) :
    Left u t c a s { m with temps := m.temps.leaving inside.temps } := by
  obtain ⟨⟨more, hruns⟩, hinside⟩ := h
  obtain ⟨rest, heq⟩ := hheld
  refine ⟨⟨more ++ rest, ?_⟩, (hkeeps.trans hinside).leaving hkeeps⟩
  rw [List.append_assoc, ← heq]
  exact hruns.withTemps _

variable (hbody : inside.site.body = a.site.body) (hheld : ∃ more, inside.held = more ++ a.held)
  (hkeeps : a.temps.Keeps inside.temps)

include hbody hheld hkeeps

/-- The end of the test, or of the body, is the end of a round, or leads on. -/
theorem rel_endRound {Y : Partial Interrupt Memory Flow}
    {f : Ended → Partial Stop State (Option (Option Signal))}
    {g : Flow → Partial Interrupt Memory (Option Flow)}
    (h : Option.Rel (Ends u t c inside N) (K s) (Y m))
    (hf : ∀ signal stop s, f (some signal, stop) s =
      some (Machine.endRound (inside.held ++ c.below).length (some signal) s))
    (hg : ∀ flow m, flow ≠ .next → g flow m = some (.ok (endRound flow) m))
    (hnext : ∀ stop s m, N s m → Option.Rel
      (SameRound (Starts u t c inside.held inside.temps)
        (LoopEnds u t c a inside.held inside.temps))
      (f (none, stop) s) ((g .next m).map (closeBraces inside.temps))) :
    Option.Rel
      (SameRound (Starts u t c inside.held inside.temps)
        (LoopEnds u t c a inside.held inside.temps))
      (K.bind f s) ((Y.bind g m).map (closeBraces inside.temps)) := by
  unfold Partial.bind
  revert h
  generalize K s = x
  generalize Y m = y
  rintro (h | _)
  · cases h with
    | next h => exact hnext _ _ _ h
    | leaves h =>
      cases h with
      | breakLoop _ h =>
        simp only [Option.bind_some, hf, hg _ _ (show Flow.breakLoop ≠ .next from nofun)]
        exact .some (LoopEnds.done h.starts.1 h.starts.2)
      | continueLoop _ h =>
        simp only [Option.bind_some, hf, hg _ _ (show Flow.continueLoop ≠ .next from nofun)]
        exact .some h.starts
      | @ret _ _ _ v hb h =>
        simp only [Option.bind_some, hf, hg _ _ (show Flow.ret v ≠ .next from nofun)]
        exact .some (LoopEnds.ret (hbody ▸ hb) (h.outside hheld hkeeps))
      | @finish _ _ _ v hb h =>
        simp only [Option.bind_some, hf, hg _ _ (show Flow.ret v ≠ .next from nofun)]
        exact .some (LoopEnds.finish (hbody ▸ hb) (h.outside hheld hkeeps))
      | halt h =>
        simp only [Option.bind_some, hf]
        exact .some (LoopEnds.halt h)
      | error he h => exact .some (LoopEnds.error he h)
  · exact .none

/-- **Rounds correspond.** -/
theorem rel_lim_round {test body : List Instruction} {os : List Operand} {q' : Point}
    {testPart bodyPart : Region} {d₁ d₂ : Draft}
    (htest : Realizes u t cx k c p { stack := os } d test q testPart d₁)
    (hs : testPart.stack = o :: os)
    (hrest : Realizes u t cx k c p { stack := os } d₁ body q' bodyPart d₂)
    (hs' : bodyPart.stack = os) (hp : p.awaiting = false)
    (hsit : Situated u c inside inside.temps p { stack := os } os)
    (hfresh : ∀ n, d.nextTemp ≤ n → n < hi → inside.temps n = none) (hd₁ : d₁.nextTemp ≤ hi)
    (hd₂ : d₂.nextTemp ≤ hi) (h : Starts u t c inside.held inside.temps s m)
    (start start' index : Nat) :
    Option.Rel
      (SameRound (Starts u t c inside.held inside.temps)
        (LoopEnds u t c a inside.held inside.temps))
      (lim (fun n => Machine.loopRound (Machine.exec cx n) ⟨start, test⟩ ⟨start', body⟩ index
        (inside.held ++ c.below).length) s)
      (lim (fun n => round (execAll u n (invoke u n k) c.context testPart.statements)
        (operand u c.context o) (execAll u n (invoke u n k) c.context bodyPart.statements)) m) := by
  obtain ⟨hruns, ht⟩ := h
  have hnew : ∀ n, d.nextTemp ≤ n → n < hi → m.temps n = none := ht ▸ hfresh
  have hrel := htest.rel (ht ▸ hsit) hp hd₁ hruns (ht ▸ hsit.values) hnew start
  rw [Machine.lim_loopRound, lim_round, ht]
  refine rel_endRound hbody hheld hkeeps hrel (fun _ _ _ => Machine.lim_endRound _ _ _)
    (fun flow m hne => ?_) fun stop s₁ m₁ hat => ?_
  · cases flow with
    | next => exact absurd rfl hne
    | _ => rfl
  -- the test has left its value above the operands from before the loop
  obtain ⟨all, hruns₁, hall, -⟩ := hat.operands
  have hkept : inside.temps.Keeps m₁.temps := ht ▸ hat.keeps
  rw [hs] at hall
  cases hall with
  | @cons _ w _ vs ho hvs =>
    obtain rfl : vs = inside.held := Values.unique hvs (hsit.values.keeps hkept)
    have hstack : s₁.stack = w :: (inside.held ++ c.below) := hruns₁.stack
    have hruns₂ := (hruns₁.pop index).2
    rw [afterTest_next ho]
    show Option.Rel _ (lim (fun n => Machine.afterTest _ _ _ _ (none, stop)) s₁) _
    rw [Machine.lim_afterTest hstack (hruns₁.base_le inside.held)]
    cases w.isTruthy with
    | false =>
      have hleft : Left u t c inside _ m₁ := ⟨⟨[], hruns₂⟩, hkept⟩
      exact .some (LoopEnds.done hleft.starts.1 hleft.starts.2)
    | true =>
      have hrel' := hrest.rel (hsit.move hsit.aligned rfl hkept) hp hd₂ hruns₂ hvs hat.fresh start'
      refine rel_endRound hbody hheld hkeeps hrel' (fun _ _ _ => rfl) (fun _ _ _ => rfl)
        fun stop s₂ m₂ hat₂ => ?_
      obtain ⟨all, hruns₃, hall, -⟩ := hat₂.operands
      have hkept₂ := hkept.trans hat₂.keeps
      rw [hs'] at hall
      obtain rfl := hall.unique (hsit.values.keeps hkept₂)
      have hleft : Left u t c inside s₂ m₂ := ⟨⟨[], hruns₃⟩, hkept₂⟩
      exact .some hleft.starts

end

/-- **A loop.** -/
theorem follows_loop {i j l : Instruction} {test body : List Instruction} {x y : Point}
    {testPart bodyPart : Region} {d₁ d₂ : Draft} (hag : Agreed u t cx k c)
    (hsit : Situated u c a before p r held) (hi : i.op = .whileTrue) (hj : j.op = .loopBody)
    (hl : l.op = .endBlock .loop)
    (ht : Translates t p.inLoop { stack := r.stack } d test x testPart d₁)
    (hx : x.height = p.height + 1) (hs : testPart.stack = o :: below)
    (hb : Translates t p.inLoop { stack := r.stack } d₁ body y bodyPart d₂)
    (hy : y.height = p.height)
    (htest : Realizes u t cx k c p.inLoop { stack := r.stack } d test x testPart d₁)
    (hrest : Realizes u t cx k c p.inLoop { stack := r.stack } d₁ body y bodyPart d₂)
    {top : Nat} (htop : d₂.nextTemp ≤ top)
    (hK : Follows u t k c a top before m (K s) p r d) :
    Follows u t k c a top before m (K.bind (thenDo cx (i :: (test ++ j :: (body ++ [l])))) s)
      (p.atHeight p.height) (r.emit (.loop testPart.statements o bodyPart.statements)) d₂ := by
  have hin := hsit.aligned.inLoop
  have htp := ht.aligned hin
  have hbp := hb.aligned hin
  have hd₁ := ht.grows.temps
  have hd₂ := hb.grows.temps
  -- the operands from before the loop are all that there are at the end of the test and the body
  obtain rfl : r.stack = below := by
    have hlength := htp.length
    rw [hs, hx, List.length_cons, ← hsit.aligned.length] at hlength
    have hsuffix := htp.held
    rw [hs] at hsuffix
    rcases List.suffix_cons_iff.mp hsuffix with heq | hsuffix
    · rw [heq, List.length_cons] at hlength
      omega
    · exact hsuffix.eq_of_length (by omega)
  have hs' : bodyPart.stack = r.stack :=
    (hbp.held.eq_of_length (by rw [hbp.length, hy, hsit.aligned.length])).symm
  refine hK.extend [.loop testPart.statements o bodyPart.statements]
    (Region.statements_emit _ _) fun start s m hat => ?_
  obtain ⟨values, hruns, hvalues, -⟩ := hat.operands
  let inside : Around := ⟨p.inLoop.site, values, m.temps⟩
  have hinside : Situated u c inside inside.temps p.inLoop { stack := r.stack } r.stack :=
    ⟨hin, hvalues, rfl, .refl _, hsit.home⟩
  obtain ⟨⟨more, hmore⟩, hkeeps⟩ : (∃ more, values = more ++ a.held) ∧ a.temps.Keeps m.temps := by
    refine ⟨?_, hsit.keeps.trans hat.keeps⟩
    obtain ⟨first, hfirst⟩ := hsit.aligned.held
    rw [← hfirst] at hvalues
    obtain ⟨vs, vs', rfl, -, hvs'⟩ := hvalues.exists_append
    exact ⟨vs, by rw [hvs'.unique (hsit.values.keeps hat.keeps)]⟩
  have hbody : p.site.body = a.site.body := congrArg Site.body hsit.site
  rw [Machine.den_loop hag.unlimited hi hj hl ⟨_, _, _, ht.nested⟩ ⟨_, _, _, hb.nested⟩, den_loop,
    hruns.stack]
  have hrel := rel_lim_rounds
    (fun n => Machine.improves_loopRound (Machine.improves_exec cx n) _ _ _ _)
    (steady_round testPart.statements bodyPart.statements o)
    (fun s m h => rel_lim_round hbody ⟨more, hmore⟩ hkeeps htest hs hrest hs' rfl hinside hat.fresh
      (Nat.le_trans hd₂ htop) htop h (start + 1) (start + 1 + test.length + 1) start)
    (s := s.ticked) (t := m) ⟨hruns.ticked, rfl⟩
  unfold Partial.bind
  revert hrel
  generalize lim (fun n => rounds (Machine.loopRound (Machine.exec cx n) _ _ _ _) n) s.ticked = x
  generalize lim (fun n => rounds (round (execAll u n (invoke u n k) c.context _) _ _) n) m = y
  rintro (hrel | _)
  · cases hrel with
    | @done s m' h ht =>
      show Option.Rel _ (Machine.den cx ⟨_, []⟩ s) _
      rw [Machine.den_nil]
      refine .some (.next (hat.update rfl h ht hvalues (Nat.le_trans hd₁ hd₂) ?_))
      exact fun _ _ _ => nofun
    | ret hb h => exact .some (.leaves (.ret hb h))
    | finish hb h => exact .some (.leaves (.finish hb h))
    | halt h => exact .some (.leaves (.halt h))
    | error he h => exact .some (.leaves (.error he h))
  · exact .none

/-! ## Methods and blocks -/

section

variable {i l : Instruction} {body : List Instruction} {scope : ScopeId} {x : Point} {inner : Region}
  {d₁ : Draft} {owned : Scope}

/-- The function that a body becomes is a function of the unit. -/
theorem isFunction_of_translates {kind : BodyKind} {name : FunctionName}
    (hb : Translates t (.start kind scope) {} d body x inner d₁) (hx : x.height = 1)
    (hs : inner.stack = o :: below) (hget : t.get? scope = some owned) (hu : d₁.Within u)
    (hf : u.function? name = some (inner.toFunction name scope owned o)) :
    IsFunction u t kind scope body name := by
  obtain ⟨o', hs'⟩ := hb.exists_result hx
  obtain ⟨rfl, rfl⟩ := List.cons.inj (hs.symm.trans hs')
  exact ⟨x, inner, d, d₁, o, owned, hb, hs, hu, hget, hf⟩

/-- **A method is defined.** -/
theorem follows_method {name : String} (hag : Agreed u t cx k c)
    (ha : (placement t).admits p i = true) (hi : i.op = .defineMethod name scope)
    (hl : l.op = .endBlock .method)
    (hb : Translates t (.start .method scope) {} d.addNumber body x inner d₁) (hx : x.height = 1)
    (hs : inner.stack = o :: below) (hget : t.get? scope = some owned)
    (hu : ((d₁.addSymbol name).addFunction
      (inner.toFunction (.method d.nextFunction name) scope owned o)).Within u) {top : Nat}
    (hK : Follows u t k c a top before m (K s) p r d) :
    Follows u t k c a top before m (K.bind (thenDo cx (i :: (body ++ [l]))) s)
      (p.atHeight (p.height + 1))
      ((r.emit (.defineMethod (d₁.symbolRef name) (.method d.nextFunction name))).push
        (.literal (.sym (d₁.symbolRef name))))
      ((d₁.addSymbol name).addFunction
        (inner.toFunction (.method d.nextFunction name) scope owned o)) := by
  have hsymbol : (d₁.addSymbol name).Within u := ⟨hu.symbols, hu.strings, fun f hf =>
    hu.functions f (List.mem_append_left _ hf)⟩
  have hname := hsymbol.symbolRef name
  have hfits := CUnit.fits_of_admits ha
  rw [hi] at hfits
  have hfunction := isFunction_of_translates hb hx hs hget
    ((Draft.grows_addSymbol d₁ name).within hsymbol)
    (hu.functions _ (List.mem_append_right _ (List.mem_singleton_self _)))
  refine hK.extend [.defineMethod _ _] (Region.statements_emit _ _)
    fun start s m hat => ?_
  obtain ⟨values, hruns, hvalues, -⟩ := hat.operands
  obtain ⟨old, hold, -⟩ := hruns.holds.methods _ name hname
  rw [Machine.den_method hag.unlimited hi hl ⟨_, _, _, hb.nested⟩, Machine.den_nil,
    den_defineMethod hold]
  have hsame : SameMethod u t
      { name, body := ⟨start + 1, body⟩, scope, selfOnly := s.visibility = .selfOnly }
      { function := .method d.nextFunction name, selfOnly := m.visibility = .selfOnly } :=
    ⟨by rw [hruns.holds.visibility], hfits, hfunction⟩
  have hruns' := (hruns.ticked.update (hruns.ticked.holds.withMethod hag.symbols hname hsame) rfl
    (.of_eq rfl rfl) hruns.stack).push (.sym name)
  have hsym : operand? u c.context m.temps (.literal (.sym (d₁.symbolRef name))) =
      some (.sym name) := congrArg (Option.map Value.sym) hname
  exact .some (.next (hat.update rfl hruns' rfl (.cons hsym hvalues) hb.grows.temps
    fun _ _ _ => nofun))

/-- **A block is captured.** -/
theorem follows_block (hag : Agreed u t cx k c) (hhome : c.home = p.site.scope)
    (ha : (placement t).admits p i = true) (hi : i.op = .defineBlock scope)
    (hl : l.op = .endBlock .block)
    (hb : Translates t (.start .block scope) {} d.addNumber body x inner d₁) (hx : x.height = 1)
    (hs : inner.stack = o :: below) (hget : t.get? scope = some owned)
    (hu : (d₁.addFunction
      (inner.toFunction (.block d.nextFunction) scope owned o)).Within u) {top : Nat}
    (htop : d₁.nextTemp < top) (hK : Follows u t k c a top before m (K s) p r d) :
    Follows u t k c a top before m (K.bind (thenDo cx (i :: (body ++ [l]))) s) (p.behindBlock true)
      (r.memoize d₁.nextTemp (.closure (.block d.nextFunction)))
      ((d₁.addFunction (inner.toFunction (.block d.nextFunction) scope owned o)).addTemps 1) := by
  have hwithin : d₁.Within u := ⟨hu.symbols, hu.strings, fun f hf =>
    hu.functions f (List.mem_append_left _ hf)⟩
  have hfits := CUnit.fits_of_admits ha
  rw [hi] at hfits
  have hopens : Op.opensBlock t c.home scope = true := hhome ▸ hfits
  have hfunction := isFunction_of_translates hb hx hs hget hwithin
    (hu.functions _ (List.mem_append_right _ (List.mem_singleton_self _)))
  refine hK.extend [.declare _ _] (Region.statements_emit _ _) fun start s m hat => ?_
  obtain ⟨values, hruns, hvalues, -⟩ := hat.operands
  rw [Machine.den_block hag.unlimited hi hl ⟨_, _, _, hb.nested⟩ hruns.frames, Machine.den_nil,
    den_declare_of_value (computeDen_closure _) (hat.fresh _ hb.grows.temps htop),
    hruns.holds.closures_size]
  refine .some (.next (hat.memoize (e := d₁.addFunction _) hvalues
    (hruns.ticked.capture hfunction hopens) rfl hb.grows.temps htop (fun _ => ⟨_, rfl, ?_⟩) _))
  exact Nat.lt_of_lt_of_eq (Nat.lt_succ_self _) (Array.size_push _).symm

end

/-! ## All code -/

theorem Realizes.append {p₁ : Point} {r₁ : Region} {d₁ : Draft} (hcx : cx.Unlimited)
    (ht : Translates t p r d code p₁ r₁ d₁) (hsite : p₁.site = p.site)
    (hd : d₁.nextTemp ≤ d'.nextTemp) (h : Realizes u t cx k c p r d code p₁ r₁ d₁)
    (h' : Realizes u t cx k c p₁ r₁ d₁ tail q r' d') :
    Realizes u t cx k c p r d (code ++ tail) q r' d' := by
  intro a hi before held K s m hsit hhi hK
  rw [bind_thenDo_append hcx ⟨_, _, _, ht.nested⟩]
  exact h' (hsit.move (ht.aligned hsit.aligned) hsite (.refl _)) hhi
    (h hsit (Nat.le_trans hd hhi) hK)

/-- **Translated code does what the machine does.** The induction is on the derivation; the bodies of
methods and blocks are not executed where they are defined. -/
theorem realizes_of_translates (h : Translates t p r d code q r' d') (hag : Agreed u t cx k c)
    (hu : d'.Within u) (hbound : r.Bounded d) : Realizes u t cx k c p r d code q r' d' := by
  induction h with
  | nil =>
    intro a hi before held K s m _ _ hK
    rw [bind_thenDo_nil]
    exact hK
  | @plain p q r r₁ r' d d₁ d' i rest taken left ha he hh hstep hadvances hr ih =>
    -- here and below, the instruction or block is taken alone, and then the code behind it
    have hgroup := Translates.plain ha he hh hstep hadvances (.nil _ _ _)
    refine Realizes.append hag.unlimited hgroup rfl hr.grows.temps ?_
      (ih hu (hgroup.bounded hbound))
    intro a hi before held K s m hsit hhi hK
    exact follows_plain hag hsit ha he hh hstep (hr.grows.within hu) hhi hK
  | @cond p q y n r yesArm noArm r' d d₁ d₂ d' v below i j l yes no rest ha hi hj hl hs hy hn heq hr
      ihy ihn ihr =>
    have hgroup := Translates.cond ha hi hj hl hs hy hn heq (.nil _ _ _)
    have hu₂ : d₂.Within u := (Draft.grows_addTemps d₂ _).within (hr.grows.within hu)
    have hbelow : ({ stack := below } : Region).Bounded d := fun n hn =>
      hbound n (hs ▸ List.mem_cons_of_mem v hn)
    have hyes := ihy (hn.grows.within hu₂) hbelow
    have hno := ihn hu₂ fun n hn => Nat.lt_of_lt_of_le (hbelow n hn) hy.grows.temps
    rw [show i :: (yes ++ j :: (no ++ l :: rest)) = i :: (yes ++ j :: (no ++ [l])) ++ rest by simp]
    refine Realizes.append hag.unlimited hgroup rfl hr.grows.temps ?_
      (ihr hu (hgroup.bounded hbound))
    intro a top before held K s m hsit hhi hK
    exact follows_cond hag hsit hbound ha hi hj hl hs hy hn heq hyes hno hhi hK
  | @loop p q x y r testPart bodyPart r' d d₁ d₂ d' v below i j l test body rest ha hi hj hl ht htest
      hs hb hbody hr iht ihb ihr =>
    have hgroup := Translates.loop ha hi hj hl ht htest hs hb hbody (.nil _ _ _)
    have hu₂ := hr.grows.within hu
    have htest' := iht (hb.grows.within hu₂) hbound
    have hbody' := ihb hu₂ fun n hn => Nat.lt_of_lt_of_le (hbound n hn) ht.grows.temps
    rw [show i :: (test ++ j :: (body ++ l :: rest)) = i :: (test ++ j :: (body ++ [l])) ++ rest
      by simp]
    refine Realizes.append hag.unlimited hgroup rfl hr.grows.temps ?_
      (ihr hu (hgroup.bounded hbound))
    intro a top before held K s m hsit hhi hK
    exact follows_loop hag hsit hi hj hl ht htest hs hb hbody htest' hbody' hhi hK
  | @method p q x r inner r' d d₁ d' v below owned i l name scope body rest ha hi hl hb hbody hs hget
      hr _ ihr =>
    have hgroup := Translates.method (r := r) ha hi hl hb hbody hs hget (.nil _ _ _)
    rw [show i :: (body ++ l :: rest) = i :: (body ++ [l]) ++ rest by simp]
    refine Realizes.append hag.unlimited hgroup rfl hr.grows.temps ?_
      (ihr hu (hgroup.bounded hbound))
    intro a top before held K s m _ _ hK
    exact follows_method hag ha hi hl hb hbody hs hget (hr.grows.within hu) hK
  | @block p q x r inner r' d d₁ d' v below owned i l scope body rest ha hi hl hb hbody hs hget hr _
      ihr =>
    have hgroup := Translates.block (r := r) ha hi hl hb hbody hs hget (.nil _ _ _)
    have hu₁ := (Draft.grows_addTemps _ 1).within (hr.grows.within hu)
    rw [show i :: (body ++ l :: rest) = i :: (body ++ [l]) ++ rest by simp]
    refine Realizes.append hag.unlimited hgroup rfl hr.grows.temps ?_
      (ihr hu (hgroup.bounded hbound))
    intro a top before held K s m hsit hhi hK
    exact follows_block hag hsit.home ha hi hl hb hbody hs hget hu₁ hhi hK

end StackCode.Native
