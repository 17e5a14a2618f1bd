import Mathlib.Data.List.Forall2
import StackCode.Proofs.Translation
import StackCode.Proofs.UnitMeaning

/-!
# Merging arms

The arms of a conditional start from one stack and leave stacks of their own. What all of them left
in place at the bottom stays; every place above it becomes a temp, and the temps are assigned at the
end of each arm, from the top of its stack down.

The assignments are performed one after another, and yet none of them spoils what a later one reads:
the temps are new, so no operand names them. Behind the arm the merged stack therefore has the
values that the arm's own stack had (`delivers_assignTop`).

Operands are C, and a literal may be any C without effects. What it is worth depends on the locals
that it names: `Reading` is a way to give literals values.
-/

namespace StackCode.CUnit

/-! ## Names and values -/

/-- A character of a name in C. -/
def isNameChar (c : Char) : Bool := c.isAlphanum || c = '_'

/-- The names in a text of C: whatever stands between characters that no name has. -/
def names (code : String) : List String :=
  (code.toList.splitOnP fun c => !isNameChar c).map String.ofList

/-- The values of the C locals, by name. -/
abbrev Locals (V : Type) := String → V

/-- What literals are worth when the locals have given values: only locals that a literal names
matter for it. -/
structure Reading (V : Type) where
  literal : Atom → Locals V → V
  literal_congr : ∀ a ρ ρ', (∀ x ∈ names a.code, ρ x = ρ' x) → literal a ρ = literal a ρ'

namespace Reading

variable {V : Type} (R : Reading V)

/-- What an operand is worth. -/
def operand (ρ : Locals V) : Operand → V
  | .literal a => R.literal a ρ
  | .temp n => ρ (tempName n)

/-- The locals after assignments of operands to temps, performed one after another. -/
def perform (ρ : Locals V) : List (Nat × Operand) → Locals V
  | [] => ρ
  | (t, v) :: rest => perform (Function.update ρ (tempName t) (R.operand ρ v)) rest

end Reading

/-- The operand names no temp from `next` on. -/
def Operand.Below (next : Nat) (v : Operand) : Prop :=
  ∀ t, next ≤ t → tempName t ∉ names v.code

/-! ## The names of temps -/

theorem toList_tempName (n : Nat) : (tempName n).toList = 't' :: Nat.toDigits 10 n := by
  simp [tempName]

/-- Temps with different numbers have different names. -/
theorem tempName_injective : Function.Injective tempName := by
  intro m n h
  have hdigits : Nat.toDigits 10 m = Nat.toDigits 10 n := by
    simpa [toList_tempName] using congrArg String.toList h
  simpa using congrArg (Nat.ofDigitChars 10 · 0) hdigits

theorem names_tempName (n : Nat) : names (tempName n) = [tempName n] := by
  have hchars : ∀ c ∈ (tempName n).toList, (!isNameChar c) = false := by
    intro c hc
    rw [toList_tempName] at hc
    rcases List.mem_cons.mp hc with rfl | hc
    · rfl
    · have hdigit := Nat.isDigit_of_mem_toDigits (by decide) (by decide) hc
      simp [isNameChar, Char.isAlphanum, hdigit]
  simp [names, List.splitOnP_eq_singleton hchars]

/-- The name of a temp is the only one in it. -/
theorem Operand.below_temp_iff {next n : Nat} : (Operand.temp n).Below next ↔ n < next := by
  simp only [Operand.Below, Operand.code, names_tempName, List.mem_singleton]
  constructor
  · intro h
    by_contra hn
    exact h n (by omega) rfl
  · intro h t ht heq
    have := tempName_injective heq
    omega

/-! ## Assignments to new temps -/

section

variable {V : Type} {R : Reading V} {next : Nat} {assigns : List (Nat × Operand)}

/-- An operand does not notice assignments to temps that it does not name. -/
theorem operand_update {ρ : Locals V} {v : Operand} {t : Nat} (hv : v.Below next) (ht : next ≤ t)
    (x : V) : R.operand (Function.update ρ (tempName t) x) v = R.operand ρ v := by
  cases v with
  | literal a =>
    refine R.literal_congr a _ _ fun y hy => Function.update_of_ne ?_ _ _
    rintro rfl
    exact hv t ht hy
  | temp n =>
    have hn := Operand.below_temp_iff.mp hv
    refine Function.update_of_ne (fun heq => ?_) _ _
    have := tempName_injective heq
    omega

/-- Assignments to new temps leave old operands as they are. -/
theorem operand_perform {v : Operand} (hv : v.Below next) :
    ∀ (assigns : List (Nat × Operand)) (ρ : Locals V), (∀ a ∈ assigns, next ≤ a.1) →
      R.operand (R.perform ρ assigns) v = R.operand ρ v := by
  intro assigns
  induction assigns with
  | nil => intros; rfl
  | cons a rest ih =>
    intro ρ h
    obtain ⟨ha, hrest⟩ := List.forall_mem_cons.mp h
    exact (ih _ hrest).trans (operand_update hv ha _)

/-- A temp keeps its value while others are assigned. -/
theorem perform_of_notMem {t : Nat} :
    ∀ (assigns : List (Nat × Operand)) (ρ : Locals V), t ∉ assigns.map Prod.fst →
      R.perform ρ assigns (tempName t) = ρ (tempName t) := by
  intro assigns
  induction assigns with
  | nil => intros; rfl
  | cons a rest ih =>
    intro ρ h
    obtain ⟨hne, hrest⟩ := not_or.mp (List.mem_cons.not.mp h)
    refine (ih _ hrest).trans (Function.update_of_ne (fun heq => ?_) _ _)
    exact hne (tempName_injective heq)

/-- **Assignments to new temps act as if performed at once**: each temp ends with the value that its
operand had before them. -/
theorem perform_of_mem :
    ∀ (assigns : List (Nat × Operand)) (ρ : Locals V), (assigns.map Prod.fst).Nodup →
      (∀ a ∈ assigns, next ≤ a.1 ∧ a.2.Below next) →
      ∀ a ∈ assigns, R.perform ρ assigns (tempName a.1) = R.operand ρ a.2 := by
  intro assigns
  induction assigns with
  | nil => simp
  | cons b rest ih =>
    intro ρ hnodup h a ha
    obtain ⟨hb, hrest⟩ := List.forall_mem_cons.mp h
    obtain ⟨hfirst, hnodup⟩ := List.nodup_cons.mp hnodup
    rcases List.mem_cons.mp ha with rfl | ha
    · exact (perform_of_notMem rest _ hfirst).trans (Function.update_self ..)
    · exact (ih _ hnodup hrest a ha).trans (operand_update (hrest a ha).2 hb.1 _)

end

/-! ## The least of some numbers -/

theorem least_le : ∀ {l : List Nat} {n : Nat}, n ∈ l → least l ≤ n
  | [m], n, h => by simp_all [least]
  | m :: k :: rest, n, h => by
    rcases List.mem_cons.mp h with rfl | h
    · exact Nat.min_le_left ..
    · exact Nat.le_trans (Nat.min_le_right ..) (least_le h)

/-- The least of some numbers is one of them. -/
theorem least_mem : ∀ {l : List Nat}, l ≠ [] → least l ∈ l
  | [], h => absurd rfl h
  | [n], _ => List.mem_singleton.mpr rfl
  | n :: m :: rest, _ => by
    have ih := least_mem (List.cons_ne_nil m rest)
    show min n (least (m :: rest)) ∈ n :: m :: rest
    rcases Nat.le_total n (least (m :: rest)) with h | h
    · rw [Nat.min_eq_left h]
      exact List.mem_cons_self ..
    · rw [Nat.min_eq_right h]
      exact List.mem_cons_of_mem n ih

/-! ## Heights -/

variable {next : Nat} {before : List Operand} {arms : List Region} {arm : Region}

/-- How many of the operands `before` all arms leave as they are. -/
def keptHeight (before : List Operand) (arms : List Region) : Nat :=
  least (arms.map fun arm => sharedHeight arm.stack before)

/-- How many operands become temps. -/
def mergedHeight (before : List Operand) (arms : List Region) : Nat :=
  least (arms.map fun arm => arm.stack.length - keptHeight before arms)

theorem temps_merge : (merge next before arms).temps =
    (List.range (mergedHeight before arms)).map (next + ·) := rfl

theorem stack_merge : (merge next before arms).stack =
    ((merge next before arms).temps.map Operand.temp).reverse ++
      before.drop (before.length - keptHeight before arms) := rfl

theorem length_temps_merge : (merge next before arms).temps.length = mergedHeight before arms := by
  simp [temps_merge]

theorem le_of_mem_temps_merge {t : Nat} (h : t ∈ (merge next before arms).temps) : next ≤ t := by
  obtain ⟨n, -, rfl⟩ := List.mem_map.mp h
  exact Nat.le_add_right next n

theorem nodup_temps_merge : (merge next before arms).temps.Nodup :=
  List.nodup_range.map fun _ _ h => Nat.add_left_cancel h

section

variable (before)

theorem keptHeight_le_sharedHeight (h : arm ∈ arms) :
    keptHeight before arms ≤ sharedHeight arm.stack before :=
  least_le (List.mem_map_of_mem h)

/-- No more is kept than an arm has, or than there was before. -/
theorem keptHeight_le (h : arm ∈ arms) :
    keptHeight before arms ≤ arm.stack.length ∧ keptHeight before arms ≤ before.length := by
  have hkept := keptHeight_le_sharedHeight before h
  have hshared := sharedHeight_le arm.stack before
  omega

/-- Every arm has a value for each of the temps. -/
theorem mergedHeight_le (h : arm ∈ arms) :
    mergedHeight before arms ≤ arm.stack.length - keptHeight before arms :=
  least_le (List.mem_map_of_mem (f := fun arm => arm.stack.length - keptHeight before arms) h)

/-- The lowest arm is merged down to what is kept. -/
theorem exists_mergedHeight (h : arms ≠ []) : ∃ arm ∈ arms,
    arm.stack.length - keptHeight before arms = mergedHeight before arms :=
  List.mem_map.mp (least_mem (by simpa using h))

/-- Arms that end at one height are merged as a whole. -/
theorem mergedHeight_of_level
    (hlevel : ∀ a ∈ arms, ∀ b ∈ arms, a.stack.length = b.stack.length) (h : arm ∈ arms) :
    mergedHeight before arms = arm.stack.length - keptHeight before arms := by
  obtain ⟨lowest, hlowest, hmerged⟩ := exists_mergedHeight before (List.ne_nil_of_mem h)
  rw [← hmerged, hlevel lowest hlowest arm h]

end

/-- The merged stack is what was kept and a temp for each place above. -/
theorem length_stack_merge (h : arm ∈ arms) :
    (merge next before arms).stack.length =
      mergedHeight before arms + keptHeight before arms := by
  have hkept := (keptHeight_le before h).2
  rw [stack_merge, List.length_append, List.length_reverse, List.length_map, length_temps_merge,
    List.length_drop]
  omega

/-- **The merged stack is as high as the lowest arm.** -/
theorem min?_length_arms (h : arms ≠ []) :
    (arms.map (·.stack.length)).min? = some (merge next before arms).stack.length := by
  rw [List.min?_eq_some_iff]
  obtain ⟨lowest, hlowest, hmerged⟩ := exists_mergedHeight before h
  rw [length_stack_merge hlowest]
  constructor
  · have hkept := (keptHeight_le before hlowest).1
    exact List.mem_map.mpr ⟨lowest, hlowest, by omega⟩
  · intro n hn
    obtain ⟨arm, harm, rfl⟩ := List.mem_map.mp hn
    have hmerged := mergedHeight_le before harm
    have hkept := (keptHeight_le before harm).1
    omega

/-! ## Values behind an arm -/

/-- The assignments that an arm ends with. -/
def closingAssigns (temps : List Nat) (arm : Region) : List (Nat × Operand) :=
  temps.zip (arm.stack.take temps.length).reverse

/-- An arm goes on with assignments, after which `stack` has the values that the arm's own stack had
before them. -/
def Reading.Delivers {V : Type} (R : Reading V) (stack : List Operand) (arm merged : Region) :
    Prop :=
  ∃ assigns : List (Nat × Operand),
    merged.statements = arm.statements ++ assigns.map (fun a => Stmt.assign a.1 a.2) ∧
    ∀ ρ : Locals V, stack.map (R.operand (R.perform ρ assigns)) = arm.stack.map (R.operand ρ)

section

variable {V : Type} {R : Reading V}

/-- The temps take the values of the operands at the top. -/
theorem map_perform_closingAssigns {temps : List Nat} (hnodup : temps.Nodup)
    (htemps : ∀ t ∈ temps, next ≤ t) (hlength : temps.length ≤ arm.stack.length)
    (hbelow : ∀ v ∈ arm.stack, v.Below next) (ρ : Locals V) :
    (temps.map Operand.temp).reverse.map (R.operand (R.perform ρ (closingAssigns temps arm))) =
      (arm.stack.take temps.length).map (R.operand ρ) := by
  have hcount : (arm.stack.take temps.length).reverse.length = temps.length := by
    rw [List.length_reverse, List.length_take_of_le hlength]
  have hfst : (closingAssigns temps arm).map Prod.fst = temps :=
    List.map_fst_zip (Nat.le_of_eq hcount.symm)
  have hsnd : (closingAssigns temps arm).map Prod.snd = (arm.stack.take temps.length).reverse :=
    List.map_snd_zip (Nat.le_of_eq hcount)
  have hnew : ∀ a ∈ closingAssigns temps arm, next ≤ a.1 ∧ a.2.Below next := by
    intro a ha
    obtain ⟨ht, hv⟩ := List.of_mem_zip ha
    exact ⟨htemps _ ht, hbelow _ (List.mem_of_mem_take (List.mem_reverse.mp hv))⟩
  have htop : temps.map (fun t => R.perform ρ (closingAssigns temps arm) (tempName t)) =
      (arm.stack.take temps.length).reverse.map (R.operand ρ) := by
    calc temps.map (fun t => R.perform ρ (closingAssigns temps arm) (tempName t))
      _ = ((closingAssigns temps arm).map Prod.fst).map
            (fun t => R.perform ρ (closingAssigns temps arm) (tempName t)) := by rw [hfst]
      _ = (closingAssigns temps arm).map
            (fun a => R.perform ρ (closingAssigns temps arm) (tempName a.1)) := List.map_map
      _ = (closingAssigns temps arm).map (fun a => R.operand ρ a.2) :=
        List.map_congr_left (perform_of_mem _ ρ (hfst.symm ▸ hnodup) hnew)
      _ = ((closingAssigns temps arm).map Prod.snd).map (R.operand ρ) := by
        rw [List.map_map]
        rfl
      _ = (arm.stack.take temps.length).reverse.map (R.operand ρ) := by rw [hsnd]
  rw [List.map_reverse, List.map_map, ← List.reverse_inj, List.reverse_reverse, ← List.map_reverse]
  exact htop

/-- **Behind an arm the merged stack has the values of the arm's own.** -/
theorem delivers_assignTop (harm : arm ∈ arms) (hbelow : ∀ v ∈ arm.stack, v.Below next)
    (hlevel : ∀ a ∈ arms, ∀ b ∈ arms, a.stack.length = b.stack.length) :
    R.Delivers (merge next before arms).stack arm
      (assignTop (merge next before arms).temps arm) := by
  refine ⟨closingAssigns (merge next before arms).temps arm, ?_, fun ρ => ?_⟩
  · exact statements_assignTop _ arm
  have hmerged := mergedHeight_of_level before hlevel harm
  have hkept := keptHeight_le before harm
  have hlength : (merge next before arms).temps.length = mergedHeight before arms :=
    length_temps_merge
  have hbottom : before.drop (before.length - keptHeight before arms) =
      arm.stack.drop (mergedHeight before arms) := by
    rw [hmerged, drop_sharedHeight (keptHeight_le_sharedHeight before harm)]
  rw [stack_merge, List.map_append, map_perform_closingAssigns nodup_temps_merge
    (fun t => le_of_mem_temps_merge) (by omega) hbelow, hlength, hbottom]
  have hsame : ∀ v ∈ arm.stack.drop (mergedHeight before arms),
      R.operand (R.perform ρ (closingAssigns (merge next before arms).temps arm)) v =
        R.operand ρ v := by
    intro v hv
    refine operand_perform (hbelow v (List.mem_of_mem_drop hv)) _ ρ fun a ha => ?_
    exact le_of_mem_temps_merge (List.of_mem_zip ha).1
  rw [List.map_congr_left hsame, ← List.map_append, List.take_append_drop]

/-- **Merging is correct.** The temps have different names and the stack is as high as that of the
lowest arm. When all arms are equally high, each arm delivers its own values. -/
theorem merge_delivers (R : Reading V) (before : List Operand) (hne : arms ≠ [])
    (hbelow : ∀ arm ∈ arms, ∀ v ∈ arm.stack, v.Below next) :
    ((merge next before arms).temps.map tempName).Nodup ∧
    (arms.map (·.stack.length)).min? = some (merge next before arms).stack.length ∧
    ((∀ a ∈ arms, ∀ b ∈ arms, a.stack.length = b.stack.length) →
      List.Forall₂ (R.Delivers (merge next before arms).stack) arms
        (merge next before arms).arms) := by
  refine ⟨nodup_temps_merge.map tempName_injective, min?_length_arms hne, fun hlevel => ?_⟩
  show List.Forall₂ _ arms (arms.map (assignTop (merge next before arms).temps))
  rw [List.forall₂_map_right_iff, List.forall₂_same]
  exact fun arm harm => delivers_assignTop harm (hbelow arm harm) hlevel

end

/-! ## Two arms that differ -/

/-- The reading of literals under which a unit is executed: what a literal stands for is settled
when its function is entered. -/
def unitReading (u : CUnit) (cx : Native.Context) : Reading (Option Value) where
  literal a _ := Native.atom? u cx a
  literal_congr _ _ _ _ := rfl

/-- C without names like those of temps is below all of them. -/
theorem Operand.below_of_names {v : Operand}
    (h : ∀ x ∈ names v.code, x.toList.head? ≠ some 't') : v.Below next := by
  intro t _ hmem
  exact h _ hmem (by rw [toList_tempName]; rfl)

/-- The stack before the arms. -/
def threeOperands : List Operand := [.temp 1, .temp 0, .literal .nil]

/-- The first arm changes the order of the last two operands. The second one has a constant in place
of the last one, and keeps the other two. -/
def swappedOrReplaced : List Region :=
  [{ stack := [.temp 0, .temp 1, .literal .nil] },
    { stack := [.literal (.int 7), .temp 0, .literal .nil] }]

theorem swappedOrReplaced_below : ∀ arm ∈ swappedOrReplaced, ∀ v ∈ arm.stack, v.Below 2 := by
  have hnil : (Operand.literal .nil).Below 2 := Operand.below_of_names (by decide +kernel)
  have hint : (Operand.literal (.int 7)).Below 2 := Operand.below_of_names (by decide +kernel)
  have htemp (n : Nat) (h : n < 2) : (Operand.temp n).Below 2 := Operand.below_temp_iff.mpr h
  simp [swappedOrReplaced, hnil, hint, htemp]

/-- A unit with nothing in it. -/
def bareUnit : CUnit :=
  { maxCallDepth := 1, echo := false, symbols := [], strings := [], functions := [],
    main := { name := .main, scope := .root, envSize := 0, body := [] } }

theorem swappedOrReplaced_merge_delivers :
    let merged := merge 2 threeOperands swappedOrReplaced
    let reading := unitReading bareUnit { self := .main, args := [], block := none, env := ⟨0⟩ }
    (∀ arm ∈ swappedOrReplaced, ∀ v ∈ arm.stack, v.Below 2) ∧ merged.temps = [2, 3] ∧
    merged.stack = [.temp 3, .temp 2, .literal .nil] ∧ (merged.temps.map tempName).Nodup ∧
    (swappedOrReplaced.map (·.stack.length)).min? = some 3 ∧
    List.Forall₂ (reading.Delivers merged.stack) swappedOrReplaced merged.arms := by
  intro merged reading
  have hlevel : ∀ a ∈ swappedOrReplaced, ∀ b ∈ swappedOrReplaced,
      a.stack.length = b.stack.length := by
    simp [swappedOrReplaced]
  obtain ⟨hnodup, hheight, hdelivers⟩ := merge_delivers reading threeOperands
    (List.cons_ne_nil _ _) swappedOrReplaced_below
  exact ⟨swappedOrReplaced_below, rfl, rfl, hnodup, hheight, hdelivers hlevel⟩

end StackCode.CUnit
