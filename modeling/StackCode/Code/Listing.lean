import StackCode.Code.Program

/-!
# Listings

A program as text for readers: one numbered line per instruction, indented by the blocks around it,
and one line per scope.
-/

namespace StackCode.Listing

/-- The rule above and below the heading. -/
def rule : String := String.ofList (List.replicate 40 '═')

/-- `n` in decimal, filled up with zeros to four digits. -/
def lineNumber (n : Nat) : String :=
  let digits := toString n
  String.ofList (List.replicate (4 - digits.length) '0') ++ digits

/-- The level of the instruction when `depth` blocks are open before it, and the number of blocks
open after it. The marks of a block stand at the level of its first instruction. -/
def level (op : Op) (depth : Nat) : Nat × Nat :=
  match op with
  | .endBlock _ => (depth - 1, depth - 1)
  | .orElse | .loopBody => (depth - 1, depth)
  | _ => (depth, if op.opens?.isSome then depth + 1 else depth)

/-- One line for an instruction. -/
def codeLine (index level : Nat) (i : Instruction) : String :=
  lineNumber index ++ "  " ++ Op.padRight 4 i.scope.text ++ " "
    ++ String.ofList (List.replicate (2 * level) ' ') ++ i.op.text

/-- The lines for the instructions from `index` on, where `depth` blocks are open. -/
def codeLines : Nat → Nat → List Instruction → List String
  | _, _, [] => []
  | index, depth, i :: rest =>
    let (level, depth') := level i.op depth
    codeLine index level i :: codeLines (index + 1) depth' rest

/-- One line for a scope: its flags, the scope around it and its variables. -/
def scopeLine (index : Nat) (scope : Scope) : String :=
  let flags := (if scope.hoist then ["hoist"] else []) ++ (if scope.block then ["block"] else [])
  let outer := match scope.outer with
    | some s => s.text
    | none => "-"
  Op.padRight 4 ("s" ++ toString index) ++ " outer=" ++ Op.padRight 4 outer ++ " ["
    ++ ",".intercalate flags ++ "] vars: " ++ ", ".intercalate scope.slotNames

/-- The lines for the scopes of a tree. -/
def scopeLines (t : ScopeTree) : List String :=
  t.scopes.toList.zipIdx.map fun (scope, index) => scopeLine index scope

/-- The text of these lines, each with a line end. -/
def unlines (lines : List String) : String :=
  String.join (lines.map (· ++ "\n"))

/-- The listing of a program under a title. -/
def render (title : String) (p : Program) : String :=
  let heading :=
    [rule, " " ++ title,
      " " ++ toString p.code.length ++ " instructions, " ++ toString p.scopes.size ++ " scopes",
      rule]
  unlines (heading ++ codeLines 0 0 p.code ++ [""] ++ scopeLines p.scopes)

/-- How often each mnemonic occurs. -/
def counts (code : List Instruction) : Table Nat :=
  code.foldl (fun t i => t.insert i.op.mnemonic ((t.get? i.op.mnemonic).getD 0 + 1)) .empty

end StackCode.Listing
