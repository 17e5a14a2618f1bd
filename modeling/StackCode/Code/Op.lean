import StackCode.Scope.Basic
import StackCode.Text.Quoted

/-!
# Instructions

Programs are flat lists of instructions for a stack machine. Conditionals, loops, methods and block
literals stay visible in the list: each opens with its own instruction and closes with an end that
carries the label of what it closes.
-/

namespace StackCode

/-- What an end closes. -/
inductive BlockLabel where
  | cond | loop | method | block
deriving DecidableEq, Repr

/-- The label in listings and messages. -/
def BlockLabel.text : BlockLabel → String
  | cond => "if"
  | loop => "while"
  | method => "def"
  | block => "block"

/-- The marks that can end a stretch of code. -/
inductive Terminator where
  | orElse | loopBody | ending
deriving DecidableEq, Repr

/-- The mark in messages. -/
def Terminator.text : Terminator → String
  | orElse => "ELSE"
  | loopBody => "WHILE_BODY"
  | ending => "END"

/-- Who may call a method with an explicit receiver. -/
inductive Visibility where
  | everyone | selfOnly
deriving DecidableEq, Repr

/-- What an instruction does. In the comments `( a -- b )` says that the values `a` are taken from
the operand stack and the values `b` left there. -/
inductive Op where
  | pushInt (n : Int64)
  | pushString (s : String)
  | pushSymbol (s : String)
  | pushNil
  | pushTrue
  | pushFalse
  | pushSelf
  /-- ( value -- ) -/
  | pop
  /-- ( value -- value value ) -/
  | dup
  /-- ( -- value ) -/
  | getLocal (name : String)
  /-- ( value -- ), in the innermost scope only when `localOnly`. -/
  | setLocal (name : String) (localOnly : Bool)
  /-- ( -- value ) -/
  | getGlobal (name : String)
  /-- ( value -- ) -/
  | setGlobal (name : String)
  /-- Refuses a call with any other number of arguments. -/
  | checkArgs (expected : UInt64)
  /-- ( -- value ), nil when the call has fewer arguments. -/
  | pushArg (index : UInt64)
  /-- ( [receiver] args... [block] -- result ) -/
  | send (message : String) (argc : UInt64) (receiver withBlock : Bool)
  /-- ( args... -- result ) -/
  | yield (argc : UInt64)
  /-- ( condition -- ). The code up to `orElse` runs when the condition is true, the code from there
  to the end otherwise. -/
  | ifTrue
  | orElse
  /-- The code up to `loopBody` is the condition, the code from there to the end the body. -/
  | whileTrue
  | loopBody
  /-- ( -- symbol ). The body runs up to the end. -/
  | defineMethod (name : String) (bodyScope : ScopeId)
  /-- ( -- proc ). The body runs up to the end. -/
  | defineBlock (bodyScope : ScopeId)
  | endBlock (label : BlockLabel)
  /-- ( value -- ) -/
  | ret
  | breakOut
  /-- ( [value] -- ) -/
  | next (withValue : Bool)
  | halt
  | setVisibility (visibility : Visibility)
deriving DecidableEq, Repr

namespace Op

/-- The label of the block that the instruction opens. -/
def opens? : Op → Option BlockLabel
  | ifTrue => some .cond
  | whileTrue => some .loop
  | defineMethod .. => some .method
  | defineBlock _ => some .block
  | _ => none

/-- The mark that the instruction is. -/
def terminator? : Op → Option Terminator
  | orElse => some .orElse
  | loopBody => some .loopBody
  | endBlock _ => some .ending
  | _ => none

/-- The label of an end. -/
def label? : Op → Option BlockLabel
  | endBlock label => some label
  | _ => none

/-- Whether the instruction only pushes a constant. -/
def isPurePush : Op → Bool
  | pushInt _ | pushString _ | pushSymbol _ | pushNil | pushTrue | pushFalse | pushSelf => true
  | _ => false

/-- The name of the instruction in listings. -/
def mnemonic : Op → String
  | pushInt _ => "PUSH_INT"
  | pushString _ => "PUSH_STRING"
  | pushSymbol _ => "PUSH_SYMBOL"
  | pushNil => "PUSH_NIL"
  | pushTrue => "PUSH_TRUE"
  | pushFalse => "PUSH_FALSE"
  | pushSelf => "PUSH_SELF"
  | pop => "POP"
  | dup => "DUP"
  | getLocal _ => "VARIABLE_GET"
  | setLocal .. => "VARIABLE_SET"
  | getGlobal _ => "GLOBAL_GET"
  | setGlobal _ => "GLOBAL_SET"
  | checkArgs _ => "CHECK_ARGS"
  | pushArg _ => "PUSH_ARG"
  | send .. => "SEND"
  | yield _ => "YIELD"
  | ifTrue => "IF"
  | orElse => "ELSE"
  | whileTrue => "WHILE"
  | loopBody => "WHILE_BODY"
  | defineMethod .. => "DEFINE_METHOD"
  | defineBlock _ => "DEFINE_BLOCK"
  | endBlock _ => "END"
  | ret => "RETURN"
  | breakOut => "BREAK"
  | next _ => "NEXT"
  | halt => "HALT"
  | setVisibility _ => "SET_VISIBILITY"

/-- The operands of the instruction in listings. -/
def operands? : Op → Option String
  | pushInt n => some (toString n.toInt)
  | pushString s => some (Text.quote s)
  | pushSymbol s => some (":" ++ s)
  | getLocal name | getGlobal name | setGlobal name => some name
  | setLocal name localOnly => some (name ++ if localOnly then " (local)" else "")
  | checkArgs expected => some (toString expected.toNat)
  | pushArg index => some (toString index.toNat)
  | send message argc receiver withBlock =>
    some (message ++ " argc=" ++ toString argc.toNat ++ (if receiver then " receiver" else "")
      ++ if withBlock then " block" else "")
  | yield argc => some ("argc=" ++ toString argc.toNat)
  | defineMethod name bodyScope => some (name ++ " scope=" ++ bodyScope.text)
  | defineBlock bodyScope => some ("scope=" ++ bodyScope.text)
  | endBlock label => some label.text
  | next true => some "value"
  | setVisibility .everyone => some "public"
  | setVisibility .selfOnly => some "private"
  | _ => none

/-- `s` filled up with spaces to `width` characters. -/
def padRight (width : Nat) (s : String) : String :=
  s ++ String.ofList (List.replicate (width - s.length) ' ')

/-- The instruction in listings and messages: the operands start in column 17. -/
def text (op : Op) : String :=
  match op.operands? with
  | some operands => padRight 16 op.mnemonic ++ operands
  | none => op.mnemonic

end Op

/-- An operation and the lexical scope that it belongs to. -/
structure Instruction where
  op : Op
  scope : ScopeId := .root
deriving DecidableEq, Repr

/-- The scope and the operation, on one line. -/
def Instruction.text (i : Instruction) : String :=
  i.scope.text ++ " " ++ i.op.text

end StackCode
