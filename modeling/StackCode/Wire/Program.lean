import StackCode.Code.Program
import StackCode.Wire.Basic

/-!
# Encoded programs

The bytes of a program: its instructions, then its scopes. An instruction starts with the number of
its kind; the kinds are numbered from zero. A reader takes what it needs from the front and ignores
what follows.
-/

namespace StackCode.Wire

/-! ## Writing -/

/-- The number of a label. -/
def labelNumber : BlockLabel → UInt32
  | .cond => 0
  | .loop => 1
  | .method => 2
  | .block => 3

/-- The number of a visibility. -/
def visibilityNumber : Visibility → UInt32
  | .everyone => 0
  | .selfOnly => 1

/-- The number of the operation's kind. -/
def opNumber : Op → UInt32
  | .pushInt _ => 0
  | .pushString _ => 1
  | .pushSymbol _ => 2
  | .pushNil => 3
  | .pushTrue => 4
  | .pushFalse => 5
  | .pushSelf => 6
  | .pop => 7
  | .dup => 8
  | .getLocal _ => 9
  | .setLocal .. => 10
  | .getGlobal _ => 11
  | .setGlobal _ => 12
  | .checkArgs _ => 13
  | .pushArg _ => 14
  | .send .. => 15
  | .yield _ => 16
  | .ifTrue => 17
  | .orElse => 18
  | .whileTrue => 19
  | .loopBody => 20
  | .defineMethod .. => 21
  | .defineBlock _ => 22
  | .endBlock _ => 23
  | .ret => 24
  | .breakOut => 25
  | .next _ => 26
  | .halt => 27
  | .setVisibility _ => 28

/-- The number of a scope. -/
def putScopeId (s : ScopeId) : List UInt8 := putHalf s.val

/-- The operands of an operation. -/
def putOperands : Op → List UInt8
  | .pushInt n => putInt n
  | .pushString s | .pushSymbol s => putText s
  | .getLocal name | .getGlobal name | .setGlobal name => putText name
  | .setLocal name localOnly => putText name ++ putBool localOnly
  | .checkArgs n | .pushArg n | .yield n => putWord n
  | .send message argc receiver withBlock =>
    putText message ++ putWord argc ++ putBool receiver ++ putBool withBlock
  | .defineMethod name s => putText name ++ putScopeId s
  | .defineBlock s => putScopeId s
  | .endBlock label => putHalf (labelNumber label)
  | .next withValue => putBool withValue
  | .setVisibility v => putHalf (visibilityNumber v)
  | _ => []

/-- An operation. -/
def putOp (op : Op) : List UInt8 := putHalf (opNumber op) ++ putOperands op

/-- An instruction. -/
def putInstruction (i : Instruction) : List UInt8 := putOp i.op ++ putScopeId i.scope

/-- A variable and its slot. -/
def putVariable (v : String × UInt64) : List UInt8 := putText v.1 ++ putWord v.2

/-- A scope whose variables are listed in the order `vars`. -/
def putScopeWith (vars : List (String × UInt64)) (scope : Scope) : List UInt8 :=
  putList putVariable vars ++ putBool scope.hoist ++ putBool scope.block
    ++ putOption putScopeId scope.outer

/-- A scope. -/
def putScope (scope : Scope) : List UInt8 := putScopeWith scope.vars.entries scope

/-! ## Reading -/

/-- A label. -/
def getLabel : Reader BlockLabel := do
  match (← getHalf).toNat with
  | 0 => return .cond
  | 1 => return .loop
  | 2 => return .method
  | 3 => return .block
  | _ => throw .unknownVariant

/-- A visibility. -/
def getVisibility : Reader Visibility := do
  match (← getHalf).toNat with
  | 0 => return .everyone
  | 1 => return .selfOnly
  | _ => throw .unknownVariant

/-- The number of a scope. -/
def getScopeId : Reader ScopeId := return ⟨← getHalf⟩

/-- The operands of an operation of the kind with this number. -/
def getOperands : Nat → Reader Op
  | 0 => return .pushInt (← getInt)
  | 1 => return .pushString (← getText)
  | 2 => return .pushSymbol (← getText)
  | 3 => return .pushNil
  | 4 => return .pushTrue
  | 5 => return .pushFalse
  | 6 => return .pushSelf
  | 7 => return .pop
  | 8 => return .dup
  | 9 => return .getLocal (← getText)
  | 10 => return .setLocal (← getText) (← getBool)
  | 11 => return .getGlobal (← getText)
  | 12 => return .setGlobal (← getText)
  | 13 => return .checkArgs (← getWord)
  | 14 => return .pushArg (← getWord)
  | 15 => return .send (← getText) (← getWord) (← getBool) (← getBool)
  | 16 => return .yield (← getWord)
  | 17 => return .ifTrue
  | 18 => return .orElse
  | 19 => return .whileTrue
  | 20 => return .loopBody
  | 21 => return .defineMethod (← getText) (← getScopeId)
  | 22 => return .defineBlock (← getScopeId)
  | 23 => return .endBlock (← getLabel)
  | 24 => return .ret
  | 25 => return .breakOut
  | 26 => return .next (← getBool)
  | 27 => return .halt
  | 28 => return .setVisibility (← getVisibility)
  | _ => throw .unknownVariant

/-- An operation. -/
def getOp : Reader Op := do
  let kind ← getHalf
  getOperands kind.toNat

/-- An instruction. -/
def getInstruction : Reader Instruction := do
  let op ← getOp
  let scope ← getScopeId
  return ⟨op, scope⟩

/-- A variable and its slot. -/
def getVariable : Reader (String × UInt64) := do
  let name ← getText
  let slot ← getWord
  return (name, slot)

/-- A scope. Of two entries for one variable the later one counts. -/
def getScope : Reader Scope := do
  let vars ← getList getVariable
  let hoist ← getBool
  let block ← getBool
  let outer ← getOption getScopeId
  return { vars := .ofList vars, hoist, block, outer }

/-- A program. -/
def getProgram : Reader Program := do
  let code ← getList getInstruction
  let scopes ← getList getScope
  return { code, scopes := ⟨scopes.toArray⟩ }

end StackCode.Wire

namespace StackCode.Program

/-- The bytes of a program. -/
def encode (p : Program) : List UInt8 :=
  Wire.putList Wire.putInstruction p.code ++ Wire.putList Wire.putScope p.scopes.scopes.toList

/-- The program at the front of these bytes. -/
def decode (bytes : List UInt8) : Except Wire.DecodeError Program :=
  (Wire.getProgram bytes).map (·.1)

end StackCode.Program
