import StackCode.Code.Program
import StackCode.Machine.Env
import StackCode.Machine.Exception

/-!
# States of the machine

The machine has one operand stack for all calls; each call owns the operands above its base.
Methods, global variables, environments and captured blocks live as long as the run.

A computation of the machine changes the state and may stop early. What it changed before it stopped
stays changed.
-/

namespace StackCode.Machine

/-- Limits of a run. -/
structure Limits where
  /-- How many calls may be active. -/
  callDepth : Nat := 1000
  /-- How many instructions may run. -/
  steps : Option Nat := none
  /-- How many operands there may be. -/
  stack : Option Nat := none
  /-- Whether each access to a variable is compared with the text of the program. -/
  checkScopes : Bool := false
deriving DecidableEq, Repr

/-- What stays the same in a run. -/
structure Setup where
  limits : Limits
  scopes : ScopeTree
deriving DecidableEq, Repr

/-- The number of a captured block. -/
abbrev ProcId := Nat

/-- A captured block: its code and what it needs to run later, in another call. -/
structure Closure where
  body : Segment
  scope : ScopeId
  env : EnvId
  self : Value
  /-- The block of the call that captured this one. -/
  block : Option ProcId
  /-- The method in which the block was written. -/
  home : String
deriving DecidableEq, Repr

/-- A method of the program. -/
structure Method where
  name : String
  body : Segment
  scope : ScopeId
  selfOnly : Bool
deriving DecidableEq, Repr

/-- An active call. -/
structure Frame where
  name : String
  callSite : Nat
  args : List Value
  env : EnvId
  block : Option ProcId
  self : Value
  /-- The height of the operand stack when the call began. -/
  base : Nat
deriving DecidableEq, Repr

/-- What the program has written, and how many more bytes are accepted. -/
structure Output where
  written : Array UInt8 := #[]
  room : Option Nat := none
deriving DecidableEq, Repr

/-- The state of a run. -/
structure State where
  /-- The operands of all calls, the last one first. -/
  stack : List Value := []
  /-- The active calls, the innermost first. -/
  frames : List Frame := []
  methods : Table Method := .empty
  globals : Table Value := .empty
  visibility : Visibility := .selfOnly
  envs : EnvStore := {}
  procs : Array Closure := #[]
  output : Output := {}
  steps : Nat := 0
deriving DecidableEq, Repr

/-- Why a run fails. -/
inductive Fault where
  | raised (e : Raised)
  | malformed (e : Malformed)
  | unknownVariable (e : UnknownVariable)
  | stepLimit (max : Nat)
  | stackLimit (max : Nat)
  | outputFull
  /-- The code names a scope that the program does not have. -/
  | missingScope (scope : ScopeId)
  /-- The code asks for more operands than can be counted, which aborts the program. -/
  | countOverflow (count : Nat)
deriving DecidableEq, Repr

/-- The wording of the fault. -/
def Fault.message : Fault → String
  | raised e => e.exception.message
  | malformed e => e.message
  | unknownVariable e => e.message
  | stepLimit max => "execution step limit exceeded (" ++ toString max ++ ")"
  | stackLimit max => "operand stack limit exceeded (" ++ toString max ++ ")"
  | outputFull => "output error: sink full"
  | missingScope scope => "no scope " ++ scope.text
  | countOverflow _ => "attempt to add with overflow"

/-- Why a computation stops: a fault of the program, or the end of the fuel that bounds it. -/
inductive Stop where
  | fault (fault : Fault)
  | outOfFuel
deriving DecidableEq, Repr

/-- A computation of the machine. -/
abbrev Exec := EStateM Stop State

/-- Stops with a fault. -/
def fail {α : Type} (f : Fault) : Exec α := throw (.fault f)

/-- Stops because the code is malformed. -/
def malformed {α : Type} (index : Nat) (cause : Malformed.Cause) : Exec α :=
  fail (.malformed ⟨index, cause, some .machine⟩)

/-- Stops with an exception of the program. -/
def raise {α : Type} (e : Exception) : Exec α := fail (.raised ⟨e, []⟩)

/-- Takes the result of a search for a variable. -/
def liftLookup {α : Type} : Except UnknownVariable α → Exec α
  | .ok a => pure a
  | .error e => fail (.unknownVariable e)

/-- Cuts a block out of a segment. -/
def cut (s : Segment) (sought : Terminator) (label : Option BlockLabel) :
    Exec (Segment × Segment) :=
  match s.takeBlock sought label with
  | .ok parts => pure parts
  | .error e => fail (.malformed (e.inStage .machine))

/-! ## Operands -/

/-- The height below which the current call may not reach. -/
def State.base (s : State) : Nat :=
  match s.frames with
  | [] => 0
  | frame :: _ => frame.base

/-- Puts a value on the stack. -/
def push (v : Value) : Exec Unit := modify fun s => { s with stack := v :: s.stack }

/-- Takes the last operand of the current call. -/
def pop (index : Nat) : Exec Value := fun s =>
  match s.stack with
  | v :: rest =>
    if s.base < s.stack.length then .ok v { s with stack := rest }
    else malformed index .outOfStack s
  | [] => malformed index .outOfStack s

/-- The last operand of the current call. -/
def peek (index : Nat) : Exec Value := fun s =>
  match s.stack with
  | v :: _ => if s.base < s.stack.length then .ok v s else malformed index .outOfStack s
  | [] => malformed index .outOfStack s

/-- Why operands up to a height are not there. Heights are 64-bit numbers: one that is too large
aborts the program. -/
def shortage (height index : Nat) : Fault :=
  if height < UInt64.size then .malformed ⟨index, .outOfStack, some .machine⟩ else .countOverflow height

/-- Takes the last `n` operands of the current call, in the order in which they were pushed. -/
def popN (n : UInt64) (index : Nat) : Exec (List Value) := fun s =>
  if s.stack.length < s.base + n.toNat then fail (shortage (s.base + n.toNat) index) s
  else .ok (s.stack.take n.toNat).reverse { s with stack := s.stack.drop n.toNat }

/-- Cuts the stack down to a height. -/
def State.truncate (s : State) (height : Nat) : State :=
  { s with stack := s.stack.drop (s.stack.length - height) }

/-- Cuts the stack down to a height. -/
def truncate (height : Nat) : Exec Unit := modify (·.truncate height)

/-! ## The current call -/

/-- The current call. -/
def frame (index : Nat) : Exec Frame := do
  match (← get).frames with
  | [] => malformed index .noFrame
  | f :: _ => return f

/-- The number of active calls; the top level is none. -/
def State.callDepth (s : State) : Nat := s.frames.length - 1

/-- Makes an environment. -/
def newEnv (cx : Setup) (scope : ScopeId) (parent : Option EnvId) : Exec EnvId := do
  match Env.ofScope? cx.scopes scope parent with
  | some env =>
    let id := (← get).envs.next
    modify fun s => { s with envs := s.envs.push env }
    return id
  | none => fail (.missingScope scope)

/-- Compares where a variable is found with where the text of the program has it, when that is asked
for. -/
def checkLookup (cx : Setup) (env : EnvId) (scope : ScopeId) (name : String) (localOnly : Bool)
    (index : Nat) : Exec Unit := do
  if cx.limits.checkScopes then
    match cx.scopes.resolve? scope name localOnly with
    | none => fail (.missingScope scope)
    | some expected =>
      let expected ← liftLookup expected
      let envs := (← get).envs
      let (owner, depth) ← liftLookup (envs.resolve env name localOnly)
      let found := envs.lexical owner
      if found ≠ expected.scope ∨ depth ≠ expected.depth then
        malformed index (.bindsElsewhere name found depth expected.scope expected.depth)

/-! ## Output -/

/-- Writes a text: as much of it as there is room for. -/
def write (text : String) : Exec Unit := fun s =>
  let bytes := text.toUTF8.data
  match s.output.room with
  | none => .ok () { s with output := { s.output with written := s.output.written ++ bytes } }
  | some room =>
    let accepted := bytes.take room
    let s := { s with output := { written := s.output.written ++ accepted,
                                  room := some (room - bytes.size) } }
    if bytes.size ≤ room then .ok () s else fail .outputFull s

/-- Writes each value on a line of its own; a text that ends a line itself gets no second end. -/
def writeLines (args : List Value) : Exec Unit :=
  if args.isEmpty then write "\n"
  else args.forM fun v =>
    write (if v.text.toList.getLast? = some '\n' then v.text else v.text ++ "\n")

/-! ## Limits -/

/-- Counts one instruction and checks the limits. -/
def tick (cx : Setup) : Exec Unit := do
  modify fun s => { s with steps := s.steps + 1 }
  let s ← get
  if let some max := cx.limits.steps then
    if max < s.steps then fail (.stepLimit max)
  if let some max := cx.limits.stack then
    if max < s.stack.length then fail (.stackLimit max)

end StackCode.Machine
