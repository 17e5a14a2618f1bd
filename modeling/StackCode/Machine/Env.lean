import StackCode.Scope.Basic
import StackCode.Value

/-!
# Environments

The variables of one call of a method or block. A call of a block sees the environment in which the
block was written through its parent. Environments outlive their calls when a block captures them,
so they are kept in a store and named by number.
-/

namespace StackCode

/-- The number of an environment. -/
structure EnvId where
  index : Nat
deriving DecidableEq, Repr, Inhabited

/-- The variables of one call. -/
structure Env where
  vars : Table Value
  parent : Option EnvId
  /-- Whether a search passes on to the parent. -/
  block : Bool
  /-- The scope that the call runs. -/
  lexical : ScopeId
deriving DecidableEq, Repr

/-- The environment of a call that runs a scope: every variable of the scope is nil. There is none
when the tree does not hold the scope. -/
def Env.ofScope? (scopes : ScopeTree) (lexical : ScopeId) (parent : Option EnvId) : Option Env := do
  let scope ← scopes.get? lexical
  return { vars := scope.vars.map fun _ => .nil, parent, block := scope.block, lexical }

/-- All environments of a run. -/
structure EnvStore where
  envs : Array Env := #[]
deriving DecidableEq, Repr, Inhabited

namespace EnvStore

/-- The environment with this number. -/
def get? (store : EnvStore) (id : EnvId) : Option Env := store.envs[id.index]?

/-- The number that the next environment gets. -/
def next (store : EnvStore) : EnvId := ⟨store.envs.size⟩

/-- Adds an environment, which gets the number `store.next`. -/
def push (store : EnvStore) (env : Env) : EnvStore := ⟨store.envs.push env⟩

/-- The search for `name` that, `depth` blocks further out, has come to `id`; within `n`
environments. None when there is no such variable. -/
def searchWithin (store : EnvStore) (name : String) (localOnly : Bool) :
    Nat → EnvId → Nat → Option (EnvId × Nat)
  | 0, _, _ => none
  | n + 1, id, depth => do
    let env ← store.get? id
    if env.vars.contains name then some (id, depth)
    else
      let parent ← env.parent
      if env.block && !localOnly then searchWithin store name localOnly n parent (depth + 1)
      else none

/-- The scope of an environment. -/
def lexical (store : EnvStore) (id : EnvId) : ScopeId :=
  match store.get? id with
  | some env => env.lexical
  | none => .root

/-- Finds the environment that holds `name`, and the number of blocks between. Parents are older
than their children, so the number of environments bounds the search. -/
def resolve (store : EnvStore) (id : EnvId) (name : String) (localOnly : Bool) :
    Except UnknownVariable (EnvId × Nat) :=
  match store.searchWithin name localOnly store.envs.size id 0 with
  | some found => .ok found
  | none => .error ⟨name, store.lexical id⟩

/-- The value of a variable. -/
def read (store : EnvStore) (id : EnvId) (name : String) : Except UnknownVariable Value := do
  let (owner, _) ← store.resolve id name false
  return ((store.get? owner).bind (·.vars.get? name)).getD .nil

/-- Changes the variable `name` of the environment `owner`. -/
def assign (store : EnvStore) (owner : EnvId) (name : String) (value : Value) : EnvStore :=
  ⟨store.envs.modify owner.index fun env => { env with vars := env.vars.insert name value }⟩

/-- Changes a variable, wherever it is found. -/
def write (store : EnvStore) (id : EnvId) (name : String) (value : Value) (localOnly : Bool) :
    Except UnknownVariable EnvStore := do
  let (owner, _) ← store.resolve id name localOnly
  return store.assign owner name value

end EnvStore

end StackCode
