import Mathlib.Control.Monad.Basic
import Mathlib.Data.List.Perm.Subperm
import StackCode.CUnit.Generate
import StackCode.Code.Height
import StackCode.Machine.Run
import StackCode.Proofs.ScopeTree
import StackCode.Proofs.UnitMeaning

/-!
# Slots that variables share

The machine keeps a variable under its name, a unit under its slot. The two agree on which accesses
meet only where different names never come to one slot of one scope (`KeepsApart`).

`validate` asks of a slot that it be less than the number of the scope's variables, and of two slots
nothing: a tree that was built elsewhere may give one slot twice, and then a run and its unit part
(`sharedSlot_runs_part`). In a valid tree the variables are kept apart exactly when every scope that
owns variables gives each of its slots once (`keepsApart_iff_slots_perm`).
-/

namespace StackCode

/-- Slots that are in range are each given once if and only if no two variables share one. -/
theorem Scope.slots_perm_iff {scope : Scope}
    (hrange : ∀ e ∈ scope.vars.entries, e.2.toNat < scope.vars.size) :
    (scope.vars.entries.map (·.2.toNat)).Perm (List.range scope.vars.size) ↔
      ∀ a b k, scope.vars.get? a = some k → scope.vars.get? b = some k → a = b := by
  have hentry : ∀ name k, scope.vars.get? name = some k ↔ (name, k) ∈ scope.vars.entries :=
    fun _ _ => Table.findEntry_eq_some_iff scope.vars.distinct
  constructor
  · intro hperm a b k ha hb
    have hnodup : (scope.vars.entries.map (·.2.toNat)).Nodup := hperm.nodup_iff.mpr List.nodup_range
    exact congrArg Prod.fst
      (List.inj_on_of_nodup_map hnodup ((hentry a k).mp ha) ((hentry b k).mp hb) rfl)
  · intro hinj
    have hnodup : (scope.vars.entries.map (·.2.toNat)).Nodup := by
      refine List.Nodup.map_on (fun x hx y hy hslot => ?_) (List.Nodup.of_map _ scope.vars.distinct)
      have hk : x.2 = y.2 := UInt64.toNat_inj.mp hslot
      refine Prod.ext (hinj x.1 y.1 x.2 ((hentry _ _).mpr hx) ((hentry _ _).mpr ?_)) hk
      rw [hk]
      exact hy
    have hsubset : scope.vars.entries.map (·.2.toNat) ⊆ List.range scope.vars.size := by
      intro k hk
      obtain ⟨e, he, rfl⟩ := List.mem_map.mp hk
      exact List.mem_range.mpr (hrange e he)
    -- there are as many slots as variables, so that none is left out
    refine (List.subperm_of_subset hnodup hsubset).perm_of_length_le ?_
    rw [List.length_range, List.length_map]
    exact Nat.le_refl _

namespace ScopeTree

variable {t : ScopeTree}

/-- Variables with different names that are found from one scope differ in the scope that declares
them or in their slots. -/
def KeepsApart (t : ScopeTree) : Prop :=
  ∀ (s : ScopeId) (a b : String) (localOnly : Bool) (found found' : Resolved), a ≠ b →
    t.resolve? s a localOnly = some (.ok found) → t.resolve? s b localOnly = some (.ok found') →
    found.scope ≠ found'.scope ∨ found.slot ≠ found'.slot

/-- **A valid tree keeps its variables apart exactly when every scope that owns variables gives each
of the slots that its variables need once.** -/
theorem keepsApart_iff_slots_perm (hvalid : t.validate = .ok ()) :
    t.KeepsApart ↔ ∀ s scope, t.get? s = some scope → scope.hoist = false →
      (scope.vars.entries.map (·.2.toNat)).Perm (List.range scope.vars.size) := by
  have ht := validate_eq_ok_iff.mp hvalid
  constructor
  · intro hapart s scope hs hh
    refine (Scope.slots_perm_iff (ht.slots s.index scope hs)).mpr fun a b k ha hb => ?_
    have hfound : ∀ {name}, scope.vars.get? name = some k →
        t.resolve? s name false = some (.ok ⟨s, 0, k⟩) := fun hk =>
      (resolve?_eq_ok_iff ht).mpr (.here hs hh hk)
    by_contra hne
    rcases hapart s a b false _ _ hne (hfound ha) (hfound hb) with h | h
    · exact h rfl
    · exact h rfl
  · intro hperm s a b localOnly found found' hne ha hb
    obtain ⟨scope, hs, hh, ha⟩ := ((resolve?_eq_ok_iff ht).mp ha).owner
    obtain ⟨scope', hs', -, hb⟩ := ((resolve?_eq_ok_iff ht).mp hb).owner
    by_contra hshared
    rw [not_or, not_not, not_not] at hshared
    rw [hshared.1, hs'] at hs
    obtain rfl := Option.some.inj hs
    rw [hshared.2] at ha
    exact hne ((Scope.slots_perm_iff (ht.slots _ _ hs')).mp (hperm _ _ hs' hh) a b _ ha hb)

/-- A top level that declares `b` before `a`, and a block that has an `a` of its own. -/
def shadowedScopes : ScopeTree := ⟨#[{ vars := .ofList [("a", 1), ("b", 0)] },
  { vars := .ofList [("a", 0)], block := true, outer := some .root }]⟩

theorem shadowedScopes_keepsApart :
    shadowedScopes.validate = .ok () ∧ shadowedScopes.KeepsApart ∧
    shadowedScopes.resolve? ⟨1⟩ "a" false = some (.ok ⟨⟨1⟩, 0, 0⟩) ∧
    shadowedScopes.resolve? ⟨1⟩ "b" false = some (.ok ⟨.root, 1, 0⟩) := by
  have hvalid : shadowedScopes.validate = .ok () := by decide +kernel
  have hperm : ∀ scope ∈ shadowedScopes.scopes,
      (scope.vars.entries.map (·.2.toNat)).Perm (List.range scope.vars.size) := by decide +kernel
  refine ⟨hvalid, (keepsApart_iff_slots_perm hvalid).mpr fun s scope hs _ => ?_, ?_, ?_⟩
  · exact hperm scope (Array.mem_of_getElem? hs)
  · decide +kernel
  · decide +kernel

end ScopeTree

/-- Assigns 1 to `a`, then 2 to `b`, and leaves `a`. Both variables have the slot 0. -/
def sharedSlot : Program where
  code := [.pushInt 1, .setLocal "a" false, .pushInt 2, .setLocal "b" false, .getLocal "a"].map
    (⟨·, .root⟩)
  scopes := ⟨#[{ vars := .ofList [("a", 0), ("b", 0)] }]⟩

/-- **A valid program may have variables that share a slot**, and then its unit returns what was
assigned to another variable. -/
theorem sharedSlot_runs_part :
    sharedSlot.validate = .ok () ∧ checkHeights sharedSlot.code 1 = .ok () ∧
    ¬ sharedSlot.scopes.KeepsApart ∧
    (Machine.reportWithin 10 {} none sharedSlot).stack = [.int 1] ∧
    ∃ u, CUnit.generate {} sharedSlot = .ok u ∧
      u.executeWithin 10 none = some (.returned (.int 2), {}) := by
  refine ⟨?_, ?_, fun hapart => ?_, ?_, _, rfl, ?_⟩
  · decide +kernel
  · decide +kernel
  · have hfound : sharedSlot.scopes.resolve? .root "a" false = some (.ok ⟨.root, 0, 0⟩) ∧
        sharedSlot.scopes.resolve? .root "b" false = some (.ok ⟨.root, 0, 0⟩) := by decide +kernel
    rcases hapart .root "a" "b" false _ _ (by decide) hfound.1 hfound.2 with h | h
    · exact h rfl
    · exact h rfl
  · decide +kernel
  · decide +kernel

end StackCode
