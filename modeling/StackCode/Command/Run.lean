import StackCode.Command.Options
import StackCode.CUnit.Generate
import StackCode.Host.ProgramFile
import StackCode.Host.Toolchain
import StackCode.Machine.Run

/-!
# The command

Reads a program, and then lists it, saves it, writes it as C, builds and runs an executable, or
interprets it. The C compiler and the executable are started by the launcher that is given.
-/

namespace StackCode.Command

open Host

/-- Why a command fails. -/
inductive Failure where
  | load (e : LoadError)
  | io (path : String) (e : IoError)
  | generate (e : CUnit.GenerateError)
  | build (e : BuildError)
  | fault (e : Machine.Fault)
  | outOfFuel
deriving DecidableEq, Repr

/-- The wording of the failure. -/
def Failure.message : Failure → String
  | load e => e.message
  | io path e => path ++ ": " ++ e.message
  | generate e => e.message
  | build e => e.message
  | fault e => e.message
  | outOfFuel => "out of fuel"

/-- Whether the failure aborts the command where it stands. -/
def Failure.aborts : Failure → Bool
  | load (.compile (.countOverflow _)) => true
  | generate (.missingScope _) => true
  | fault (.countOverflow _) | fault (.missingScope _) => true
  | _ => false

/-- What a command leaves. -/
structure Outcome where
  status : Nat := 0
  stdout : Array UInt8 := #[]
  stderr : Array UInt8 := #[]
  files : Files
deriving DecidableEq, Repr

namespace Outcome

/-- Success, with some output. -/
def printing (files : Files) (text : String) : Outcome := { files, stdout := text.toUTF8.data }

/-- The outcome of a failure. -/
def failed (files : Files) (e : Failure) : Outcome :=
  { files, status := if e.aborts then 101 else 1, stderr := (e.message ++ "\n").toUTF8.data }

end Outcome

/-- The path without the extension of its last part, or with the extension `out` when there is
none. -/
def defaultOutput (file : String) : String :=
  let cs := file.toList
  let name := (cs.reverse.takeWhile (· ≠ '/')).reverse
  let stem := (name.reverse.dropWhile (· ≠ '.')).tail.reverse
  if stem.isEmpty then file ++ ".out"
  else String.ofList (cs.take (cs.length - name.length) ++ stem)

/-- Runs an executable that was built. A relative path is taken from the working folder. -/
def runExecutable (launch : Launcher) (files : Files) (path : String) : Outcome :=
  let path := if path.startsWith "/" then path else "./" ++ path
  match launch files path [] with
  | .error e => .failed files (.io path e)
  | .ok (f, files) => { files, status := f.status, stdout := f.stdout, stderr := f.stderr }

/-- Interprets a program. With `echo` its value is printed when it finishes. -/
def interpret (files : Files) (o : Options) (p : Program) : Outcome :=
  let r := Machine.run { callDepth := o.maxCallDepth } none p
  let written := r.output.written
  match r.result with
  | .ok (.finished (some v)) =>
    let line := if o.echo then "=> " ++ v.inspect ++ "\n" else ""
    { files, stdout := written ++ line.toUTF8.data }
  | .ok _ => { files, stdout := written }
  | .error (.fault e) => { Outcome.failed files (.fault e) with stdout := written }
  | .error .outOfFuel => { Outcome.failed files .outOfFuel with stdout := written }

/-- Goes on with a program. -/
def process (launch : Launcher) (files : Files) (cc : String) (o : Options) (p : Program) :
    Outcome :=
  match o.emitIr with
  | some path =>
    match files.saveCode path p with
    | .ok files => { files }
    | .error e => .failed files (.load e)
  | none =>
    if o.emitC.isNone && ! o.compile then interpret files o p
    else
      match CUnit.generate { maxCallDepth := o.maxCallDepth, echo := o.echo } p with
      | .error e => .failed files (.generate e)
      | .ok u =>
        match o.emitC with
        | some path =>
          match files.writeText path u.render with
          | .ok files => { files }
          | .error e => .failed files (.io path e)
        | none =>
          let output := o.output.getD (defaultOutput o.file)
          match Compiler.build launch { command := cc } files u.render output with
          | (files, .error e) => .failed files (.build e)
          | (files, .ok _) => runExecutable launch files output

/-- Does what the options ask for, with `cc` as the C compiler. -/
def run (launch : Launcher) (files : Files) (cc : String) (o : Options) : Outcome :=
  if o.loadIr then
    match files.loadCode o.file o.echo with
    | .ok p => process launch files cc o p
    | .error e => .failed files (.load e)
  else
    match o.dumpPass with
    | some pass =>
      match files.dumpSource o.file o.echo pass with
      | .ok text => .printing files text
      | .error e => .failed files (.load e)
    | none =>
      match files.loadSource o.file o.echo with
      | .ok p => process launch files cc o p
      | .error e => .failed files (.load e)

/-- Runs a command line. -/
def runArgs (launch : Launcher) (files : Files) (cc : String) (args : List String) : Outcome :=
  match Request.ofArgs args with
  | .run o => run launch files cc o
  | .help => .printing files helpText
  | .usageError =>
    { files, status := 2, stderr := "error: see --help for the usage\n".toUTF8.data }

end StackCode.Command
