import StackCode.Machine.Exec

/-!
# Runs

A run starts a program in a fresh state, of which only the room for output may come from earlier
runs, and ends with an exit or a fault.
-/

namespace StackCode.Machine

/-- How a program ends without a fault. -/
inductive Exit where
  /-- It ran off its end or returned; the value is the last operand, or the one returned. -/
  | finished (value : Option Value)
  /-- It asked to stop. -/
  | halted
deriving DecidableEq, Repr

/-- Takes up the signal that the code of a program ended with. -/
def finish : Ended → Exec Exit
  | (none, _) => return .finished (← get).stack.head?
  | (some (.ret v), _) => return .finished (some v)
  | (some .halt, _) => return .halted
  | (some other, stop) => malformed (stop - 1) (.escapedProgram other)

/-- The call that the top level of a program is. -/
def topFrame (env : EnvId) : Frame :=
  { name := "<main>", callSite := 0, args := [], env, block := none, self := .main, base := 0 }

/-- Runs a program within some fuel. -/
def runWithin (fuel : Nat) (limits : Limits) (p : Program) : Exec Exit := do
  let cx : Setup := { limits, scopes := p.scopes }
  let env ← newEnv cx .root none
  modify fun s => { s with frames := [topFrame env] }
  finish (← exec cx fuel p.segment)

/-- What a run came to. -/
structure Report where
  result : Except Stop Exit
  /-- The operands that are left, the first one first. -/
  stack : List Value
  output : Output
deriving Repr

/-- Runs a program and reports. -/
def reportWithin (fuel : Nat) (limits : Limits) (room : Option Nat) (p : Program) : Report :=
  match runWithin fuel limits p { output := { room } } with
  | .ok exit s => ⟨.ok exit, s.stack.reverse, s.output⟩
  | .error e s => ⟨.error e, s.stack.reverse, s.output⟩

/-- Fuel that no run uses up in practice. -/
def ample : Nat := 0x4000000000000000

/-- Runs a program with ample fuel. -/
def run (limits : Limits) (room : Option Nat) (p : Program) : Report :=
  reportWithin ample limits room p

/-- The room for output after a run. -/
def Report.room (r : Report) : Option Nat := r.output.room

end StackCode.Machine
