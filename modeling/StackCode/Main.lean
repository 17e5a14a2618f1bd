import StackCode.Command.Run
import StackCode.Host.Launch

/-!
# The command line

The outer layer: it takes the files that the arguments name from the system, runs the command on
them, writes changed files back, and prints what the command printed. It starts scripts in the place
of the C compiler and of executables.
-/

namespace StackCode.Main

open Host Command

/-- The paths that options name. -/
def paths (o : Options) : List String :=
  o.file :: (o.output.toList ++ o.emitC.toList ++ o.emitIr.toList)

/-- Whether the system has a folder of this name. -/
def isFolder (name : String) : IO Bool := do
  try (← IO.FS.realPath name).isDir
  catch _ => return false

/-- The bytes of a file of the system, if there is one. -/
def bytes? (name : String) : IO (Option ByteArray) := do
  try return some (← IO.FS.readBinFile name)
  catch _ => return none

/-- Takes the files at these paths from the system. -/
def takeFiles (paths : List String) : IO Files := do
  let mut fs : Files := {}
  for path in paths do
    let places := (Path.ofText path).places.map (·.text)
    for folder in places do
      if ← isFolder folder then fs := { fs with folders := folder :: fs.folders }
    for name in places.getLast? do
      if let some bytes ← bytes? name then
        fs := { fs with files := fs.files.insert name { bytes := bytes.data } }
  return fs

/-- Writes back what changed. -/
def putFiles (before after : Files) : IO Unit := do
  for (name, file) in after.files.entries do
    if before.files.get? name ≠ some file then IO.FS.writeBinFile name ⟨file.bytes⟩
  for (name, _) in before.files.entries do
    if (after.files.get? name).isNone then IO.FS.removeFile name

/-- Runs the command line. -/
def run (args : List String) : IO UInt32 := do
  let named := match Request.ofArgs args with
    | .run o => paths o
    | _ => []
  let before ← takeFiles named
  let cc := (← IO.getEnv "CC").getD "cc"
  let outcome := runArgs Script.launch before cc args
  putFiles before outcome.files
  (← IO.getStdout).write ⟨outcome.stdout⟩
  (← IO.getStderr).write ⟨outcome.stderr⟩
  return outcome.status.toUInt32

end StackCode.Main

/-- The program. -/
def main (args : List String) : IO UInt32 := StackCode.Main.run args
