import StackCode.Code.Segment

/-!
# Programs

A program is its instructions and the scopes that they name. Programs that come from outside may
name scopes that do not exist: `Program.validate` finds the first such fault.
-/

namespace StackCode

namespace ScopeTree

/-- The first fault of the scope at place `index`: an outer scope that is not an earlier one, or a
slot beyond the number of variables. -/
def checkScope (index : Nat) (scope : Scope) : Except Malformed Unit := do
  if let some outer := scope.outer then
    if index ≤ outer.index then throw ⟨0, .outerNotEarlier index outer, none⟩
  if let some (name, slot) := scope.vars.find? fun slot => scope.vars.size ≤ slot.toNat then
    throw ⟨0, .slotOutOfRange name index slot, none⟩

/-- Checks the scopes from place `index` on. -/
def checkScopes : Nat → List Scope → Except Malformed Unit
  | _, [] => .ok ()
  | index, scope :: rest => do
    checkScope index scope
    checkScopes (index + 1) rest

/-- Checks a tree: there is a top level, every outer scope comes earlier, and every slot is below
the number of variables of its scope. -/
def validate (t : ScopeTree) : Except Malformed Unit :=
  if t.scopes.isEmpty then .error ⟨0, .noRootScope, none⟩ else checkScopes 0 t.scopes.toList

end ScopeTree

namespace Op

/-- The scope of the body that the instruction defines. -/
def bodyScope? : Op → Option ScopeId
  | defineMethod _ s | defineBlock s => some s
  | _ => none

end Op

/-- A program: its instructions and their scopes. -/
structure Program where
  code : List Instruction
  scopes : ScopeTree := .initial
deriving DecidableEq, Repr, Inhabited

namespace Program

/-- The whole code as one segment. -/
def segment (p : Program) : Segment := ⟨0, p.code⟩

/-- Checks that the tree holds every scope that the instructions from `index` on name. -/
def checkCode (t : ScopeTree) : Nat → List Instruction → Except Malformed Unit
  | _, [] => .ok ()
  | index, i :: rest =>
    match (i.scope :: i.op.bodyScope?.toList).find? (! t.contains ·) with
    | some s => .error ⟨index, .unknownScope s, none⟩
    | none => checkCode t (index + 1) rest

/-- Checks the scopes of a program and every reference to them. -/
def validate (p : Program) : Except Malformed Unit := do
  p.scopes.validate
  checkCode p.scopes 0 p.code

end Program

end StackCode
