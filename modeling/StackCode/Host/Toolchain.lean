import StackCode.Host.Files
import StackCode.Text.Lossy

/-!
# Building executables

A compiler turns a C source into an executable in two steps, through an object file. Source and
object file stand beside the executable and are removed when they are not needed any more.

The compiler and the executable are programs of the system. What they do is not known here: it is up
to the launcher that is given.
-/

namespace StackCode.Host

/-- How a program ended. -/
structure Finished where
  status : Nat
  stdout : Array UInt8
  stderr : Array UInt8
deriving DecidableEq, Repr

/-- Whether the program succeeded. -/
def Finished.success (f : Finished) : Bool := f.status = 0

/-- How the system starts a program by its name, with arguments, and waits for its end. It gives how
the program ended and the files as they are then. -/
abbrev Launcher := Files → String → List String → Except IoError (Finished × Files)

/-- A C compiler. -/
structure Compiler where
  command : String
  flags : List String := ["-std=c99", "-O2"]
deriving DecidableEq, Repr

/-- Why there is no executable. -/
inductive BuildError where
  | compile (stderr : String)
  | link (stderr : String)
  | write (path : String) (e : IoError)
  /-- The compiler itself cannot be started. -/
  | spawn (program : String) (e : IoError)
deriving DecidableEq, Repr

/-- The wording of the error. -/
def BuildError.message : BuildError → String
  | compile stderr => "C compilation failed:\n" ++ stderr
  | link stderr => "linking failed:\n" ++ stderr
  | write path e => "could not write " ++ path ++ ": " ++ e.message
  | spawn program e => "could not run '" ++ program ++ "': " ++ e.message

namespace Compiler

/-- Whether the compiler can be started at all; also gives the files after the attempt. -/
def available (launch : Launcher) (c : Compiler) (fs : Files) : Bool × Files :=
  match launch fs c.command ["--version"] with
  | .ok (f, fs) => (f.success, fs)
  | .error _ => (false, fs)

/-- One step of the compiler. Fails with `failure` when the compiler does. -/
def step (launch : Launcher) (c : Compiler) (fs : Files) (args : List String)
    (failure : String → BuildError) : Files × Except BuildError Unit :=
  match launch fs c.command (c.flags ++ args) with
  | .error e => (fs, .error (.spawn c.command e))
  | .ok (f, fs) =>
    (fs, if f.success then .ok () else .error (failure (Text.ofBytes f.stderr)))

/-- Builds the executable `output` from a C source. Also gives the files after the attempt, which
failures change too. -/
def build (launch : Launcher) (c : Compiler) (fs : Files) (source output : String) :
    Files × Except BuildError Unit :=
  let sourcePath := output ++ ".c"
  let objectPath := output ++ ".o"
  match fs.writeText sourcePath source with
  | .error e => (fs, .error (.write sourcePath e))
  | .ok fs =>
    match step launch c fs ["-c", sourcePath, "-o", objectPath] .compile with
    | (fs, .error e) => (fs.without sourcePath, .error e)
    | (fs, .ok _) =>
      let (fs, linked) := step launch c (fs.without sourcePath) [objectPath, "-o", output] .link
      (fs.without objectPath, linked)

end Compiler

end StackCode.Host
