/-!
# Options

What the command line asks for. Options and the file may come in any order; a value follows its
option or stands behind an equals sign, and `--` ends the options. Every option may be given once.
-/

namespace StackCode.Command

/-- What a command is to do. -/
structure Options where
  file : String
  /-- Build an executable and run it, instead of interpreting. -/
  compile : Bool := false
  /-- The path of the executable. -/
  output : Option String := none
  /-- Write the generated C there and stop. -/
  emitC : Option String := none
  /-- List the program after this pass and stop. -/
  dumpPass : Option Nat := none
  /-- Save the program there and stop. -/
  emitIr : Option String := none
  /-- The file holds a saved program. -/
  loadIr : Bool := false
  /-- Print the value of the program. -/
  echo : Bool := false
  /-- How many calls may be active. -/
  maxCallDepth : Nat := 1000
deriving DecidableEq, Repr

/-- What the arguments amount to. -/
inductive Request where
  | run (options : Options)
  | help
  | usageError
deriving DecidableEq, Repr

/-- The names of options. -/
inductive Name where
  | compile | output | emitC | dumpPass | emitIr | loadIr | echo | maxCallDepth | help
deriving DecidableEq, Repr

namespace Name

/-- The option with this long name. -/
def ofLong? : String → Option Name
  | "compile" => some compile
  | "output" => some output
  | "emit-c" => some emitC
  | "dump-pass" => some dumpPass
  | "emit-ir" => some emitIr
  | "load-ir" => some loadIr
  | "echo" => some echo
  | "max-call-depth" => some maxCallDepth
  | "help" => some help
  | _ => none

/-- The option with this letter. -/
def ofShort? : Char → Option Name
  | 'c' => some compile
  | 'o' => some output
  | 'h' => some help
  | _ => none

/-- Whether the option has a value. -/
def takesValue : Name → Bool
  | output | emitC | dumpPass | emitIr | maxCallDepth => true
  | compile | loadIr | echo | help => false

end Name

/-- A part of the command line. -/
inductive Item where
  | option (name : Name) (value : Option String)
  | file (path : String)
deriving DecidableEq, Repr

/-! ## Items -/

/-- An argument that is not an option: it does not start with a dash, or is only a dash. -/
def isPlain (arg : String) : Bool := arg = "-" || ! arg.startsWith "-"

/-- The parts of a cluster of letters, the last of which may take the rest of the cluster or the
next argument as its value. Also gives the arguments that are left. -/
def cluster : List Char → List String → Option (List Item × List String)
  | [], rest => some ([], rest)
  | c :: more, rest => do
    let name ← Name.ofShort? c
    if name = .help then return ([.option .help none], [])
    else if name.takesValue then
      match more, rest with
      | '=' :: value, _ => return ([.option name (some (String.ofList value))], rest)
      | [], arg :: rest' =>
        if isPlain arg then return ([.option name (some arg)], rest') else none
      | [], [] => none
      | value, _ => return ([.option name (some (String.ofList value))], rest)
    else
      let (items, rest) ← cluster more rest
      return (.option name none :: items, rest)

/-- The part that a long option and its value are. -/
def long (text : String) (rest : List String) : Option (Item × List String) := do
  match text.splitOn "=" with
  | [] => none
  | [name] =>
    let name ← Name.ofLong? name
    if name.takesValue then
      match rest with
      | arg :: rest => if isPlain arg then return (.option name (some arg), rest) else none
      | [] => none
    else return (.option name none, rest)
  | name :: value =>
    let name ← Name.ofLong? name
    if name.takesValue then return (.option name (some ("=".intercalate value)), rest) else none

/-- The result of reading arguments: the parts up to the first fault or request for help. -/
structure Items where
  items : List Item
  complete : Bool
deriving DecidableEq, Repr

/-- Reads arguments, at most `n` of them. -/
def itemsWithin : Nat → List String → Items
  | 0, args => ⟨[], args.isEmpty⟩
  | _, [] => ⟨[], true⟩
  | n + 1, arg :: rest =>
    let proceed (found : Option (List Item × List String)) : Items :=
      match found with
      | none => ⟨[], false⟩
      | some (items, rest) =>
        let more := itemsWithin n rest
        ⟨items ++ more.items, more.complete⟩
    if arg = "--" then ⟨rest.map .file, true⟩
    else if arg.startsWith "--" then
      proceed ((long (String.ofList (arg.toList.drop 2)) rest).map fun (i, rest) => ([i], rest))
    else if isPlain arg then proceed (some ([.file arg], rest))
    else proceed (cluster (arg.toList.drop 1) rest)

/-! ## Values -/

/-- A number in decimal, with an optional plus sign. -/
def number? (s : String) : Option Nat :=
  let digits := match s.toList with
    | '+' :: rest => rest
    | cs => cs
  if digits.isEmpty || ! digits.all Char.isDigit then none
  else some (digits.foldl (fun n c => 10 * n + (c.toNat - 48)) 0)

/-- A number that 64 bits hold. -/
def word? (s : String) : Option Nat :=
  (number? s).filter (· < UInt64.size)

/-- A number below 256; minus zero is zero. -/
def byte? (s : String) : Option Nat :=
  match s.toList with
  | '-' :: rest =>
    if ! rest.isEmpty && rest.all (· = '0') then some 0 else none
  | _ => (number? s).filter (· < 256)

/-- A path: any text but the empty one. -/
def path? (s : String) : Option String := if s = "" then none else some s

/-! ## Requests -/

/-- The options with one more of them set; none when its value is at fault. -/
def Options.set? (o : Options) (name : Name) (value : Option String) : Option Options :=
  match name with
  | .compile => some { o with compile := true }
  | .loadIr => some { o with loadIr := true }
  | .echo => some { o with echo := true }
  | .help => some o
  | .output => (value.bind path?).map fun path => { o with output := some path }
  | .emitC => (value.bind path?).map fun path => { o with emitC := some path }
  | .emitIr => (value.bind path?).map fun path => { o with emitIr := some path }
  | .dumpPass => (value.bind byte?).map fun pass => { o with dumpPass := some pass }
  | .maxCallDepth => (value.bind word?).map fun depth => { o with maxCallDepth := depth }

/-- The options in the making. -/
structure Draft where
  file : Option String := none
  options : Options := { file := "" }
  seen : List Name := []

/-- Takes one part in; none when it is at fault. -/
def Draft.add? (d : Draft) : Item → Option Draft
  | .file path =>
    if d.file.isSome then none else (path? path).map fun path => { d with file := some path }
  | .option name value =>
    if d.seen.contains name then none
    else (d.options.set? name value).map fun options =>
      { d with options, seen := name :: d.seen }

/-- Takes parts in, one after the other. A request for help counts as soon as it is met. -/
def Draft.request (complete : Bool) : Draft → List Item → Request
  | d, [] =>
    match complete, d.file with
    | true, some file => .run { d.options with file }
    | _, _ => .usageError
  | _, .option .help _ :: _ => .help
  | d, item :: rest =>
    match d.add? item with
    | some d => Draft.request complete d rest
    | none => .usageError

/-- What these arguments ask for. -/
def Request.ofArgs (args : List String) : Request :=
  let read := itemsWithin (args.length + 1) args
  Draft.request read.complete {} read.items

/-- The lines that help prints. -/
def helpLines : List String :=
  ["Lower a Ruby-like AST and run it on a VM or compile it to C",
    "",
    "Usage: cinder [OPTIONS] <FILE>",
    "",
    "Arguments:",
    "  <FILE>  AST file (S-expression), or an IR file with --load-ir",
    "",
    "Options:",
    "  -c, --compile",
    "          Build a native executable instead of interpreting",
    "  -o, --output <OUTPUT>",
    "          Executable path for --compile (default: FILE without extension)",
    "      --emit-c <PATH>",
    "          Write the generated C source to PATH and stop",
    "      --dump-pass <N>",
    "          Print the instruction listing after pass N (1-4) and stop",
    "      --emit-ir <PATH>",
    "          Write the lowered program to PATH and stop",
    "      --load-ir",
    "          FILE is a lowered program written by --emit-ir",
    "      --echo",
    "          Print the program's final value as `=> value`",
    "      --max-call-depth <MAX_CALL_DEPTH>",
    "          Nesting limit for method and block calls [default: 1000]",
    "  -h, --help",
    "          Print help"]

/-- The text that help prints. -/
def helpText : String := String.join (helpLines.map (· ++ "\n"))

end StackCode.Command
