import StackCode.Table

/-!
# Lexical scopes

The scopes of a program form a tree, kept as an array in which every scope names its outer one by
number. A method scope is opaque: a search for a name ends there. A block scope owns its names and
lets a search pass outwards. A hoisted scope (a branch or a loop) owns none: what is declared there
belongs to the nearest scope that does not hoist.

## Leaving the tree

An array that was built elsewhere may name a scope that it does not hold, or close a circle. A
search then has no answer, which is none; `ScopeTree.validate` excludes both. Outer scopes come
before inner ones in a valid tree, so the number of scopes bounds every search.
-/

namespace StackCode

/-- The number of a scope. -/
structure ScopeId where
  val : UInt32
deriving DecidableEq, Repr, Inhabited

namespace ScopeId

/-- The scope of the program's top level. -/
def root : ScopeId := ⟨0⟩

/-- The place of the scope in its tree. -/
def index (s : ScopeId) : Nat := s.val.toNat

/-- `s` and the number. -/
def text (s : ScopeId) : String := "s" ++ toString s.index

end ScopeId

/-- A scope: its variables with their slots, its flags, and the scope around it. -/
structure Scope where
  vars : Table UInt64 := .empty
  hoist : Bool := false
  block : Bool := false
  outer : Option ScopeId := none
deriving DecidableEq, Repr, Inhabited

/-- The variables of a scope in the order of their slots. -/
def Scope.slotNames (scope : Scope) : List String :=
  (scope.vars.entries.mergeSort fun a b => a.2 ≤ b.2).map (·.1)

/-- What a scope is opened for. -/
inductive ScopeKind where
  /-- The body of a method. -/
  | method
  /-- The body of a block literal. -/
  | block
  /-- A branch of a conditional or a loop. -/
  | hoisted
deriving DecidableEq, Repr

/-- Where a variable was found. -/
structure Resolved where
  /-- The scope that declares it. -/
  scope : ScopeId
  /-- The number of blocks that the search left. -/
  depth : Nat
  slot : UInt64
deriving DecidableEq, Repr

/-- A name that no scope in reach declares, and where the search began. -/
structure UnknownVariable where
  name : String
  scope : ScopeId
deriving DecidableEq, Repr, Inhabited

/-- The wording of the error. -/
def UnknownVariable.message (e : UnknownVariable) : String :=
  "unknown variable '" ++ e.name ++ "' (lookup from scope " ++ e.scope.text ++ ")"

/-- The scopes of a program. -/
structure ScopeTree where
  scopes : Array Scope
deriving DecidableEq, Repr

namespace ScopeTree

/-- The tree that holds the top level only. -/
def initial : ScopeTree := ⟨#[{}]⟩

instance : Inhabited ScopeTree := ⟨initial⟩

/-- The number of scopes. -/
def size (t : ScopeTree) : Nat := t.scopes.size

/-- The scope with number `s`. -/
def get? (t : ScopeTree) (s : ScopeId) : Option Scope := t.scopes[s.index]?

/-- Whether the tree holds scope `s`. -/
def contains (t : ScopeTree) (s : ScopeId) : Bool := s.index < t.size

/-- The numbers of the scopes, in order. -/
def ids (t : ScopeTree) : List ScopeId :=
  (List.range t.size).map fun i => ⟨i.toUInt32⟩

/-- Opens a scope inside `outer`. Gives the tree and the number of the new scope. -/
def push (t : ScopeTree) (outer : ScopeId) (kind : ScopeKind) : ScopeTree × ScopeId :=
  let scope : Scope := match kind with
    | .method => { outer := some outer }
    | .block => { block := true, outer := some outer }
    | .hoisted => { hoist := true, block := true, outer := some outer }
  (⟨t.scopes.push scope⟩, ⟨t.size.toUInt32⟩)

/-- The nearest scope from `s` outwards that does not hoist, within `n` scopes. -/
def hoistWithin (t : ScopeTree) : Nat → ScopeId → Option ScopeId
  | 0, _ => none
  | n + 1, s => do
    let scope ← t.get? s
    match scope.hoist, scope.outer with
    | true, some outer => hoistWithin t n outer
    | _, _ => some s

/-- The scope that owns what is declared in `s`. -/
def hoistTarget? (t : ScopeTree) (s : ScopeId) : Option ScopeId :=
  t.hoistWithin t.size s

/-- Declares `name` in `s`. Gives the tree, the scope that owns the name, and its slot; a name that
is there already keeps its slot. -/
def declare? (t : ScopeTree) (s : ScopeId) (name : String) :
    Option (ScopeTree × ScopeId × UInt64) := do
  let owner ← t.hoistTarget? s
  let scope ← t.get? owner
  match scope.vars.get? name with
  | some slot => some (t, owner, slot)
  | none =>
    let slot := scope.vars.size.toUInt64
    let scope' := { scope with vars := scope.vars.insert name slot }
    some (⟨t.scopes.setIfInBounds owner.index scope'⟩, owner, slot)

/-- The tree with `name` declared in `s`. -/
def declare (t : ScopeTree) (s : ScopeId) (name : String) : ScopeTree :=
  match t.declare? s name with
  | some (t', _, _) => t'
  | none => t

/-- The search for `name` that began at `start` and, `depth` blocks further out, has come to `s`;
within `n` scopes. -/
def resolveWithin (t : ScopeTree) (start : ScopeId) (name : String) (localOnly : Bool) :
    Nat → ScopeId → Nat → Option (Except UnknownVariable Resolved)
  | 0, _, _ => none
  | n + 1, s, depth => do
    let scope ← t.get? s
    if scope.hoist then
      match scope.outer with
      | some outer => resolveWithin t start name localOnly n outer depth
      | none => some (.error ⟨name, start⟩)
    else
      match scope.vars.get? name, scope.outer with
      | some slot, _ => some (.ok ⟨s, depth, slot⟩)
      | none, some outer =>
        if scope.block && !localOnly then
          resolveWithin t start name localOnly n outer (depth + 1)
        else some (.error ⟨name, start⟩)
      | none, none => some (.error ⟨name, start⟩)

/-- Finds the declaration that `name` means in scope `s`. Hoisting scopes are passed without
counting, and `localOnly` keeps the search inside the first block. -/
def resolve? (t : ScopeTree) (s : ScopeId) (name : String) (localOnly : Bool) :
    Option (Except UnknownVariable Resolved) :=
  t.resolveWithin s name localOnly t.size s 0

/-- Whether `name` means a variable in scope `s`. -/
def isBound (t : ScopeTree) (s : ScopeId) (name : String) : Bool :=
  match t.resolve? s name false with
  | some (.ok _) => true
  | _ => false

end ScopeTree

end StackCode
