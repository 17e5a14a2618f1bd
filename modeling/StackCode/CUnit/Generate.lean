import StackCode.Code.Program
import StackCode.CUnit.Basic
import StackCode.CUnit.Interned
import StackCode.CUnit.Region

/-!
# From code to C

The code of a program becomes C segment by segment, as the machine would run it: branches, loops and
bodies are cut out at the instruction that opens them. A body becomes a function of its own;
branches and loops become statements inside the function around them.

The bound in `generateWithin` counts instructions: every recursive call has fewer of them.
-/

namespace StackCode.CUnit

/-- Why code does not become C. -/
inductive GenerateError where
  | malformed (e : Malformed)
  | unknownVariable (e : UnknownVariable)
  /-- The code names a scope that the program does not have. -/
  | missingScope (scope : ScopeId)
deriving DecidableEq, Repr

/-- The wording of the error. -/
def GenerateError.message : GenerateError → String
  | malformed e => e.message
  | unknownVariable e => e.message
  | missingScope scope => "no scope " ++ scope.text

/-- A unit in the making. -/
structure Draft where
  symbols : Interned := {}
  strings : Interned := {}
  /-- The number of the next temp. -/
  nextTemp : Nat := 0
  /-- The number of the next method or block. -/
  nextFunction : Nat := 0
  functions : List Function := []
deriving Repr

/-- Work on a unit. -/
abbrev Gen := StateT Draft (Except GenerateError)

/-- Takes a result that may be malformed. -/
def lift {α : Type} (r : Except Malformed α) : Gen α :=
  liftM (r.mapError fun e => GenerateError.malformed (e.inStage .generator))

/-- Refers to a symbol or name. -/
def symbol (s : String) : Gen Ref := modifyGet fun d =>
  let (symbols, k) := d.symbols.intern s
  (⟨k, s⟩, { d with symbols })

/-- Refers to a string. -/
def string (s : String) : Gen Ref := modifyGet fun d =>
  let (strings, k) := d.strings.intern s
  (⟨k, s⟩, { d with strings })

/-- Takes `n` fresh temps: gives the number of the first one. -/
def freshTemps (n : Nat) : Gen Nat := modifyGet fun d =>
  (d.nextTemp, { d with nextTemp := d.nextTemp + n })

/-- Takes a fresh number for a function. -/
def freshFunction : Gen Nat := modifyGet fun d =>
  (d.nextFunction, { d with nextFunction := d.nextFunction + 1 })

/-- Adds a function to the unit. -/
def addFunction (f : Function) : Gen Unit := modify fun d =>
  { d with functions := d.functions ++ [f] }

/-- Computes a value into a fresh temp. -/
def memoize (r : Region) (value : Rhs) : Gen Region := do
  let t ← freshTemps 1
  return r.memoize t value

/-- Where the variable `name` of scope `s` is kept. -/
def storage (scopes : ScopeTree) (s : ScopeId) (name : String) (localOnly : Bool) : Gen Storage :=
  match scopes.resolve? s name localOnly with
  | some (.ok r) => return .local r.depth r.slot name
  | some (.error e) => throw (.unknownVariable e)
  | none => throw (.missingScope s)

/-- Cuts a block out of a segment. -/
def cut (s : Segment) (sought : Terminator) (label : Option BlockLabel) : Gen (Segment × Segment) :=
  lift (s.takeBlock sought label)

/-- Makes a function of a body. Its result is the last operand; only the top level may have none,
and is nil then. -/
def function (scopes : ScopeTree) (run : Segment → Region → Gen Region) (name : FunctionName)
    (scope : ScopeId) (body : Segment) : Gen Function := do
  let r ← run body {}
  let result ← match r.stack, name with
    | v :: _, _ => pure v
    | [], .main => pure (.literal .nil)
    | [], name => lift (.error ⟨body.stop - 1, .noResult name.code, none⟩)
  match scopes.get? scope with
  | some s =>
    return { name, scope, envSize := s.vars.size, body := (r.emit (.ret result)).statements }
  | none => throw (.missingScope scope)

/-- Makes C of one instruction, the code after which is `after`. Gives the region and the code that
follows: a block that was cut out is passed. -/
def step (scopes : ScopeTree) (run : Segment → Region → Gen Region) (i : Instruction)
    (after : Segment) (r : Region) : Gen (Region × Segment) :=
  let index := after.start - 1
  let literal (a : Atom) : Gen (Region × Segment) := return (r.push (.literal a), after)
  match i.op with
  | .pushInt n => literal (.int n)
  | .pushString s => do literal (.str (← string s))
  | .pushSymbol s => do literal (.sym (← symbol s))
  | .pushNil => literal .nil
  | .pushTrue => literal (.bool true)
  | .pushFalse => literal (.bool false)
  | .pushSelf => literal .self
  | .pop => do return (← lift (r.discard index), after)
  | .dup => do return (r.push (← lift (r.peek index)), after)
  | .getLocal name => do
    let place ← storage scopes i.scope name false
    return (← memoize r (.load place), after)
  | .setLocal name localOnly => do
    let (v, r) ← lift (r.pop index)
    let place ← storage scopes i.scope name localOnly
    return (r.emit (.store place v), after)
  | .getGlobal name => do
    let name ← symbol name
    return (← memoize r (.load (.global name)), after)
  | .setGlobal name => do
    let (v, r) ← lift (r.pop index)
    let name ← symbol name
    return (r.emit (.store (.global name) v), after)
  | .checkArgs expected => return (r.emit (.checkArgs expected), after)
  | .pushArg n => literal (.arg n)
  | .send message argc receiver withBlock => do
    let optional (wanted : Bool) (r : Region) : Gen (Option Operand × Region) := do
      if wanted then
        let (v, r) ← lift (r.pop index)
        return (some v, r)
      else return (none, r)
    let (block, r) ← optional withBlock r
    let (args, r) ← lift (r.popN argc.toNat index)
    let (target, r) ← optional receiver r
    let message ← symbol message
    return (← memoize r (.send target message args block), after)
  | .yield argc => do
    let (args, r) ← lift (r.popN argc.toNat index)
    return (← memoize r (.yield args), after)
  | .ifTrue => do
    let (condition, r) ← lift (r.pop index)
    let (yes, after) ← cut after .orElse none
    let (no, after) ← cut after .ending (some .cond)
    let yesArm ← run yes r.fork
    let noArm ← run no r.fork
    let merged := merge (← get).nextTemp r.stack [yesArm, noArm]
    let _ ← freshTemps merged.temps.length
    let r := merged.temps.foldl (fun r t => r.emit (.declareNil t)) r
    let arms := merged.arms.map Region.statements
    let r := r.emit (.ifElse condition (arms.getD 0 []) (arms.getD 1 []))
    return ({ r with stack := merged.stack }, after)
  | .whileTrue => do
    let (test, after) ← cut after .loopBody none
    let (body, after) ← cut after .ending (some .loop)
    let testPart ← run test r.fork
    let (condition, testPart) ← lift (testPart.pop index)
    let bodyPart ← run body r.fork
    return (r.emit (.loop testPart.statements condition bodyPart.statements), after)
  | .defineMethod name scope => do
    let (body, after) ← cut after .ending (some .method)
    let f ← function scopes run (.method (← freshFunction) name) scope body
    let name ← symbol name
    addFunction f
    return ((r.emit (.defineMethod name f.name)).push (.literal (.sym name)), after)
  | .defineBlock scope => do
    let (body, after) ← cut after .ending (some .block)
    let f ← function scopes run (.block (← freshFunction)) scope body
    addFunction f
    return (← memoize r (.closure f.name), after)
  | .orElse | .loopBody | .endBlock _ => lift (.error ⟨index, .stray i.op, none⟩)
  | .ret | .next true => do
    let (v, r) ← lift (r.pop index)
    return (r.emit (.ret v), after)
  | .breakOut => return (r.emit .breakLoop, after)
  | .next false => return (r.emit .continueLoop, after)
  | .halt => return (r.emit .exit, after)
  | .setVisibility v => return (r.emit (.setVisibility v), after)

/-- Makes C of a segment, which has at most `n` instructions. -/
def generateWithin (scopes : ScopeTree) : Nat → Segment → Region → Gen Region
  | 0, _, r => return r
  | _ + 1, ⟨_, []⟩, r => return r
  | n + 1, ⟨index, i :: rest⟩, r => do
    let (r, after) ← step scopes (generateWithin scopes n) i ⟨index + 1, rest⟩ r
    generateWithin scopes n after r

/-- The settings of a unit. -/
structure Settings where
  maxCallDepth : Nat := 1000
  echo : Bool := false
deriving DecidableEq, Repr

/-- The unit of a program. -/
def generate (settings : Settings) (p : Program) : Except GenerateError CUnit := do
  let run := generateWithin p.scopes p.code.length
  let (main, draft) ← (function p.scopes run .main .root p.segment).run {}
  return { maxCallDepth := settings.maxCallDepth, echo := settings.echo,
           symbols := draft.symbols.entries, strings := draft.strings.entries,
           functions := draft.functions, main }

end StackCode.CUnit
