import StackCode.Host.Path
import StackCode.Table

/-!
# Files

The files that a command sees, held in memory. A path is followed step by step, and the first step
that cannot be taken decides the error. A file can be written only into a folder that is there.
-/

namespace StackCode.Host

/-- Why a file cannot be used. -/
inductive IoError where
  | notFound
  | execFormat
  | permissionDenied
  | alreadyExists
  | notADirectory
  | isADirectory
  | nameTooLong
  | notText
  | nulInName
  | nulInArgument
deriving DecidableEq, Repr

/-- What went wrong, and the number that the system has for it. -/
def IoError.reason : IoError → String × Option Nat
  | notFound => ("No such file or directory", some 2)
  | execFormat => ("Exec format error", some 8)
  | permissionDenied => ("Permission denied", some 13)
  | alreadyExists => ("File exists", some 17)
  | notADirectory => ("Not a directory", some 20)
  | isADirectory => ("Is a directory", some 21)
  | nameTooLong => ("File name too long", some 36)
  | notText => ("stream did not contain valid UTF-8", none)
  | nulInName => ("file name contained an unexpected NUL byte", none)
  | nulInArgument => ("nul byte found in provided data", none)

/-- The wording of the error. -/
def IoError.message (e : IoError) : String :=
  match e.reason with
  | (text, some n) => text ++ " (os error " ++ toString n ++ ")"
  | (text, none) => text

/-- A file. -/
structure File where
  bytes : Array UInt8
  executable : Bool := false
deriving DecidableEq, Repr, Inhabited

/-- The files and folders that there are, by the shortest path to them. -/
structure Files where
  files : Table File := .empty
  folders : List String := []
deriving DecidableEq, Repr, Inhabited

/-- What a path leads to. -/
inductive Located where
  | file (place : Place) (file : File)
  | folder
  /-- Nothing yet, in a folder that is there. -/
  | absent (place : Place)

namespace Files

/-- The folders that every system has. -/
def systemFolders : List String := ["/bin", "/dev", "/etc", "/tmp", "/usr", "/var"]

/-- The file that is always empty. -/
def emptyFile : String := "/dev/null"

/-- Whether there is a folder at a place. -/
def isFolder (fs : Files) (place : Place) : Bool :=
  place.isGiven || fs.folders.contains place.text || systemFolders.contains place.text

/-- The file at a place. -/
def at? (fs : Files) (place : Place) : Option File :=
  if place.text = emptyFile then some { bytes := #[] } else fs.files.get? place.text

/-- The longest name, in bytes. -/
def maxName : Nat := 255

/-- The length that a path has to stay below, in bytes. -/
def maxPath : Nat := 4096

/-- Takes a step that more steps follow. -/
def enter (fs : Files) (here : Place) (s : String) : Except IoError Place := do
  let place := Path.step here s
  if Path.isName s then
    if maxName < s.utf8ByteSize then throw .nameTooLong
    if ! fs.isFolder place then
      throw (if (fs.at? place).isSome then .notADirectory else .notFound)
  return place

/-- Follows a path up to its last step. Gives the folder where that step is taken, and the name that
it is; a path that ends in dots, and that of the root, has no such name. -/
def approach (fs : Files) (path : String) : Except IoError (Place × Option String) := do
  if path.contains '\x00' then throw .nulInName
  if path = "" then throw .notFound
  if maxPath ≤ path.utf8ByteSize then throw .nameTooLong
  let p := Path.ofText path
  let here ← p.steps.dropLast.foldlM fs.enter p.start
  match p.steps.getLast? with
  | none => return (here, none)
  | some s => if Path.isName s then return (here, some s) else return (Path.step here s, none)

/-- Follows a path to its end. -/
def locate (fs : Files) (path : String) : Except IoError Located := do
  let (here, name?) ← fs.approach path
  match name? with
  | none => return .folder
  | some name =>
    if maxName < name.utf8ByteSize then throw .nameTooLong
    let place := here.child name
    if fs.isFolder place then return .folder
    match fs.at? place with
    | some file =>
      if (Path.ofText path).slash then throw .notADirectory else return .file place file
    | none => return .absent place

/-- The file at a path. -/
def get (fs : Files) (path : String) : Except IoError File := do
  match ← fs.locate path with
  | .file _ f => return f
  | .folder => throw .isADirectory
  | .absent _ => throw .notFound

/-- The bytes of a file. -/
def read (fs : Files) (path : String) : Except IoError (Array UInt8) :=
  (·.bytes) <$> fs.get path

/-- The text of a file. -/
def readText (fs : Files) (path : String) : Except IoError String := do
  match String.fromUTF8? ⟨← fs.read path⟩ with
  | some s => return s
  | none => throw .notText

/-- Puts a file at a place. -/
def put (fs : Files) (place : Place) (file : File) : Files :=
  if place.text = emptyFile then fs else { fs with files := fs.files.insert place.text file }

/-- Writes a file. One that is there already stays executable if it was. A name before a slash is
refused as that of a folder, whatever there is. -/
def write (fs : Files) (path : String) (bytes : Array UInt8) : Except IoError Files := do
  if (← fs.approach path).2.isSome && (Path.ofText path).slash then throw .isADirectory
  match ← fs.locate path with
  | .file place f => return fs.put place { f with bytes }
  | .absent place => return fs.put place { bytes }
  | .folder => throw .isADirectory

/-- Writes a text to a file. -/
def writeText (fs : Files) (path : String) (text : String) : Except IoError Files :=
  fs.write path text.toUTF8.data

/-- Makes a folder. -/
def makeFolder (fs : Files) (path : String) : Except IoError Files := do
  match ← fs.locate path with
  | .absent place => return { fs with folders := place.text :: fs.folders }
  | .file .. | .folder => throw .alreadyExists

/-- Sets whether a file can be started. -/
def setExecutable (fs : Files) (path : String) (executable : Bool) : Except IoError Files := do
  match ← fs.locate path with
  | .file place f => return fs.put place { f with executable }
  | .folder => return fs
  | .absent _ => throw .notFound

/-- Removes a file. -/
def remove (fs : Files) (path : String) : Except IoError Files := do
  match ← fs.locate path with
  | .file place _ => return { fs with files := fs.files.erase place.text }
  | .folder => throw .isADirectory
  | .absent _ => throw .notFound

/-- The files without the one at a path, if there is one. -/
def without (fs : Files) (path : String) : Files :=
  match fs.remove path with
  | .ok fs => fs
  | .error _ => fs

/-- The names in the working folder, in order. -/
def names (fs : Files) : List String :=
  let isLocal (name : String) : Bool := ! name.contains '/' && name ≠ "" && name ≠ ".."
  ((fs.files.entries.map (·.1) ++ fs.folders).filter isLocal).mergeSort (· ≤ ·)

end Files

end StackCode.Host
