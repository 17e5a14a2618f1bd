import StackCode.Host.Script
import StackCode.Host.Toolchain

/-!
# A launcher for scripts

This launcher stands for the operating system, which starts the C compiler and the executables that
it makes; only the outer layer of the command hands it in. It knows no compiler. The programs that it
starts are shell scripts among the files, named by a path with a slash in it, which take the place of
one, and the two tools that only succeed or fail. Such a program runs to its end: what it leaves is
its status, what it wrote to its two output channels, and the files as they are then. The status of a
script that a signal ends is one.

Nothing is proved about it, and nothing that is proved depends on it.
-/

namespace StackCode.Host.Script

/-- A script at work. -/
structure Shell where
  /-- The path of the script and its arguments. -/
  args : List String
  files : Files
  vars : Table String := .empty
  stdout : Array UInt8 := #[]
  stderr : Array UInt8 := #[]
  status : Nat := 0
  /-- Whether a command that fails ends the script. -/
  strict : Bool := false
  /-- Whether the script has ended. -/
  exited : Bool := false

/-- Where output goes to. -/
inductive Sink where
  | stdout | stderr
  | file (path : String)
deriving DecidableEq, Repr

/-- A piece of what a command writes. -/
inductive Chunk where
  | out (bytes : Array UInt8)
  | err (bytes : Array UInt8)
deriving DecidableEq, Repr

/-- What a command leaves. -/
structure Effect where
  shell : Shell
  status : Nat := 0
  output : List Chunk := []

/-! ## Words -/

/-- Splits a text at blanks. -/
def blankFields (s : String) : List String :=
  ((s.toList.splitBy fun a b => isBlank a == isBlank b).filter fun g =>
    ! (g.all isBlank)).map String.ofList
where
  /-- Whether the character parts words. -/
  isBlank (c : Char) : Bool := c = ' ' || c = '\t' || c = '\n'

/-- The words that a piece stands for. Each is joined to what stands beside it in its word only at
the ends. -/
def Shell.values (sh : Shell) : Piece → List String
  | .text s => [String.ofList s]
  | .param (.arg n) true => [sh.args.getD n ""]
  | .param (.arg n) false => blankFields (sh.args.getD n "")
  | .param .all true => sh.args.drop 1
  | .param .joined true => [" ".intercalate (sh.args.drop 1)]
  | .param .all false | .param .joined false => (sh.args.drop 1).flatMap blankFields
  | .param .count _ => [toString (sh.args.length - 1)]
  | .param .status _ => [toString sh.status]
  | .param .self _ => [self]
  | .param (.var name) true => [(sh.vars.get? name).getD ""]
  | .param (.var name) false => blankFields ((sh.vars.get? name).getD "")
where
  /-- What stands for the script as the system knows it. -/
  self : String := "$$"

/-- Joins the last of some words with the first of others. -/
def joinEnds (a b : List String) : List String :=
  match a.getLast?, b with
  | some x, y :: rest => a.dropLast ++ [x ++ y] ++ rest
  | _, [] => a
  | none, b => b

/-- The words that a word stands for. -/
def Shell.expand (sh : Shell) (w : Word) : List String :=
  let words := w.pieces.foldl (fun acc p => joinEnds acc (sh.values p)) []
  let onlyAll := w.pieces = [.param .all true]
  if words.isEmpty && w.quoted && ! onlyAll then [""] else words

/-- The one word that a word stands for. -/
def Shell.expandOne (sh : Shell) (w : Word) : String := " ".intercalate (sh.expand w)

/-! ## Commands -/

/-- The character that an escape with this letter stands for. -/
def escaped? : Char → Option Char
  | 'a' => some '\x07'
  | 'b' => some '\x08'
  | 'f' => some '\x0c'
  | 'n' => some '\n'
  | 'r' => some '\r'
  | 't' => some '\t'
  | 'v' => some '\x0b'
  | '\\' => some '\\'
  | _ => none

/-- Reads the escapes of a text; an unknown one stays as it is. -/
def unescape : List Char → List Char
  | '\\' :: c :: rest =>
    match escaped? c with
    | some d => d :: unescape rest
    | none => '\\' :: c :: unescape rest
  | c :: rest => c :: unescape rest
  | [] => []

/-- Fills arguments into a format once; gives those that are left. -/
def fillOnce : List Char → List String → List Char × List String
  | '%' :: '%' :: rest, args =>
    let (out, left) := fillOnce rest args
    ('%' :: out, left)
  | '%' :: 's' :: rest, args | '%' :: 'd' :: rest, args =>
    let (out, left) := fillOnce rest args.tail
    ((args.headD "").toList ++ out, left)
  | c :: rest, args =>
    let (out, left) := fillOnce rest args
    (c :: out, left)
  | [], args => ([], args)

/-- Fills arguments into a format, again and again while there are more, at most `n` times. -/
def fill (format : List Char) : Nat → List String → List Char
  | 0, _ => []
  | n + 1, args =>
    let (out, left) := fillOnce format args
    if left.isEmpty || left.length = args.length then out else out ++ fill format n left

/-- A number in a test. -/
def number (s : String) : Except String Int :=
  match s.toInt? with
  | some n => .ok n
  | none => .error ("Illegal number: " ++ s)

/-- Whether a file or folder has the property that a flag asks for. -/
def hasProperty? (files : Files) (flag path : String) : Option Bool :=
  let found := files.locate path
  match flag, found with
  | "-e", .ok (.file ..) | "-e", .ok .folder | "-r", .ok (.file ..) | "-r", .ok .folder => some true
  | "-w", .ok (.file ..) | "-w", .ok .folder | "-f", .ok (.file ..) | "-d", .ok .folder => some true
  | "-s", .ok .folder | "-x", .ok .folder => some true
  | "-x", .ok (.file _ f) => some f.executable
  | "-s", .ok (.file _ f) => some (0 < f.bytes.size)
  | _, _ => if ["-e", "-r", "-w", "-f", "-d", "-s", "-x"].contains flag then some false else none

/-- Whether a test holds, or what is wrong with it. -/
def test (files : Files) : List String → Except String Bool
  | [] => .ok false
  | [s] => .ok (s ≠ "")
  | [a, "=", b] => .ok (a = b)
  | [a, "!=", b] => .ok (a ≠ b)
  | [a, "-eq", b] => do return (← number a) = (← number b)
  | [a, "-ne", b] => do return (← number a) ≠ (← number b)
  | [a, "-gt", b] => do return (← number b) < (← number a)
  | [a, "-ge", b] => do return (← number b) ≤ (← number a)
  | [a, "-lt", b] => do return (← number a) < (← number b)
  | [a, "-le", b] => do return (← number a) ≤ (← number b)
  | "!" :: rest => (! ·) <$> test files rest
  | ["-n", s] => .ok (s ≠ "")
  | ["-z", s] => .ok (s = "")
  | [flag, path] =>
    match hasProperty? files flag path with
    | some b => .ok b
    | none => .error (flag ++ ": unexpected operator")
  | _ :: second :: _ => .error (second ++ ": unexpected operator")

/-- The first `n` lines of some bytes. -/
def firstLines : Nat → List UInt8 → List UInt8
  | 0, _ => []
  | _, [] => []
  | n + 1, b :: rest => if b = 10 then b :: firstLines n rest else b :: firstLines (n + 1) rest

/-- Whether a mode lets a file be started; none when it says nothing about that. -/
def modeExecutes? (mode : String) : Option Bool :=
  if mode.toList.all Char.isDigit then
    some (mode.toList.any fun c => c.toNat % 2 = 1)
  else if ! mode.contains 'x' then none
  else some (! mode.contains '-')

/-- The last name on a path. -/
def baseName (path : String) : String :=
  ((path.splitOn "/").filter (· ≠ "")).getLastD path

/-- Where a file goes to: a folder takes it under its own name. -/
def targetOf (files : Files) (source target : String) : String :=
  match files.locate target with
  | .ok .folder => target ++ "/" ++ baseName source
  | _ => target

namespace Effect

/-- Adds output. -/
def print (e : Effect) (text : String) : Effect :=
  { e with output := e.output ++ [.out text.toUTF8.data] }

/-- Adds a line to the errors. -/
def complain (e : Effect) (text : String) : Effect :=
  { e with output := e.output ++ [.err (text ++ "\n").toUTF8.data] }

/-- Adds an error that makes the command fail. -/
def fail (e : Effect) (text : String) : Effect := { e.complain text with status := 1 }

/-- Changes the files, or fails with `text` and the reason. -/
def change (e : Effect) (text : String) (act : Files → Except IoError Files) : Effect :=
  match act e.shell.files with
  | .ok files => { e with shell := { e.shell with files } }
  | .error r => e.fail (text ++ ": " ++ r.reason.1)

/-- Adds the bytes of a file, as `view` shows them, or fails with the reason. A folder can be opened
but not read. -/
def display (e : Effect) (path closed opened : String) (view : Array UInt8 → Array UInt8) :
    Effect :=
  match e.shell.files.read path with
  | .ok bytes => { e with output := e.output ++ [.out (view bytes)] }
  | .error .isADirectory => e.fail (opened ++ ": " ++ IoError.isADirectory.reason.1)
  | .error r => e.fail (closed ++ ": " ++ r.reason.1)

end Effect

/-- A path between quotes. -/
def quotedPath (path : String) : String := "'" ++ path ++ "'"

/-- Runs a command that is part of the shell, on line `line`. -/
def runBuiltin? (sh : Shell) (line : Nat) : List String → Option Effect
  | [] | ":" :: _ | "true" :: _ => some { shell := sh }
  | "false" :: _ => some { shell := sh, status := 1 }
  | "exit" :: [] => some { shell := { sh with exited := true }, status := sh.status }
  | "exit" :: n :: _ =>
    match n.toNat? with
    | some n => some { shell := { sh with exited := true }, status := n % 256 }
    | none =>
      let e : Effect := { shell := { sh with exited := true } }
      some { e.complain (place ++ "exit: Illegal number: " ++ n) with status := 2 }
  | "set" :: flags :: _ =>
    some { shell := { sh with strict := sh.strict || flags.startsWith "-" && flags.contains 'e' } }
  | "shift" :: _ =>
    match sh.args with
    | script :: _ :: rest => some { shell := { sh with args := script :: rest } }
    | _ =>
      let e : Effect := { shell := { sh with exited := true } }
      some { e.complain (place ++ "shift: can't shift that many") with status := 2 }
  | "kill" :: args =>
    if args.getLast? = some (Shell.values.self) then
      some { shell := { sh with exited := true }, status := 1 }
    else none
  | "echo" :: "-n" :: args => some (({ shell := sh } : Effect).print (echoed args))
  | "echo" :: args => some (({ shell := sh } : Effect).print (echoed args ++ "\n"))
  | "printf" :: format :: args =>
    let text := String.ofList (fill (unescape format.toList) (args.length + 1) args)
    some (({ shell := sh } : Effect).print text)
  | "[" :: args =>
    if args.getLast? = some "]" then some (tested "[" (test sh.files args.dropLast))
    else some (tested "[" (.error "missing ]"))
  | "test" :: args => some (tested "test" (test sh.files args))
  | _ => none
where
  /-- What errors of the shell start with. -/
  place : String := sh.args.headD "sh" ++ ": " ++ toString line ++ ": "
  /-- What an echo writes. -/
  echoed (args : List String) : String := String.ofList (unescape (" ".intercalate args).toList)
  /-- The effect of a test. -/
  tested (name : String) (r : Except String Bool) : Effect :=
    match r with
    | .ok b => { shell := sh, status := if b then 0 else 1 }
    | .error text =>
      { ({ shell := sh } : Effect).complain (place ++ name ++ ": " ++ text) with status := 2 }

/-- Runs a command of the system; none when there is none of this name. -/
def runTool? (sh : Shell) (input : Array UInt8) : List String → Option Effect
  | ["cat"] => some { start with output := [.out input] }
  | "cat" :: paths => some <| paths.foldl (fun e path =>
      let text := "cat: " ++ path
      e.display path text text id) start
  | ["head", "-n", n] => some { start with output := [.out (lines n input)] }
  | ["head", "-n", n, path] =>
    some (start.display path ("head: cannot open " ++ quotedPath path ++ " for reading")
      ("head: error reading " ++ quotedPath path) (lines n))
  | "ls" :: [] =>
    let names := sh.files.names.filter fun name => ! name.startsWith "."
    some (start.print (String.join (names.map (· ++ "\n"))))
  | "chmod" :: mode :: paths => some <| paths.foldl (fun e path =>
      e.change ("chmod: cannot access " ++ quotedPath path) fun fs =>
        match fs.locate path, modeExecutes? mode with
        | .ok (.file _ f), m => fs.setExecutable path (m.getD f.executable)
        | _, _ => fs.setExecutable path true) start
  | "touch" :: paths => some <| paths.foldl (fun e path =>
      e.change ("touch: cannot touch " ++ quotedPath path) fun fs =>
        match fs.locate path with
        | .ok (.absent _) => fs.write path #[]
        | .ok _ => .ok fs
        | .error r => .error r) start
  | "mkdir" :: paths => some <| paths.foldl (fun e path =>
      e.change ("mkdir: cannot create directory " ++ quotedPath path) (·.makeFolder path)) start
  | "rm" :: "-f" :: paths => some <| paths.foldl (fun e path =>
      match e.shell.files.locate path with
      | .ok (.absent _) | .error .notFound | .error .notADirectory => e
      | _ => removed e path) start
  | "rm" :: paths => some (paths.foldl removed start)
  | ["cp", source, target] => some (copied source target)
  | ["mv", source, target] => some (moved source target)
  | ["sleep", _] => some start
  | _ => none
where
  /-- The effect of doing nothing. -/
  start : Effect := { shell := sh }
  /-- The first lines of some bytes. -/
  lines (n : String) (bytes : Array UInt8) : Array UInt8 :=
    (firstLines (n.toNat?.getD 10) bytes.toList).toArray
  /-- Removes one file. -/
  removed (e : Effect) (path : String) : Effect :=
    e.change ("rm: cannot remove " ++ quotedPath path) (·.remove path)
  /-- Whether two paths lead to the same file. -/
  same (a b : String) : Bool :=
    match sh.files.locate a, sh.files.locate b with
    | .ok (.file p _), .ok (.file q _) => p = q
    | _, _ => false
  /-- Copies a file. A new file takes the mode of the first one. -/
  copied (source target : String) : Effect :=
    match sh.files.get source with
    | .error .isADirectory =>
      start.fail ("cp: -r not specified; omitting directory " ++ quotedPath source)
    | .error r => start.fail ("cp: cannot stat " ++ quotedPath source ++ ": " ++ r.reason.1)
    | .ok f =>
      let target := targetOf sh.files source target
      if same source target then
        start.fail ("cp: " ++ quotedPath source ++ " and " ++ quotedPath target
          ++ " are the same file")
      else
        start.change ("cp: cannot create regular file " ++ quotedPath target) fun fs => do
          let fresh := (fs.get target).toOption.isNone
          let fs ← fs.write target f.bytes
          if fresh then fs.setExecutable target f.executable else return fs
  /-- Moves a file. -/
  moved (source target : String) : Effect :=
    match sh.files.get source with
    | .error r => start.fail ("mv: cannot stat " ++ quotedPath source ++ ": " ++ r.reason.1)
    | .ok f =>
      let target := targetOf sh.files source target
      if same source target then
        start.fail ("mv: " ++ quotedPath source ++ " and " ++ quotedPath target
          ++ " are the same file")
      else
        start.change ("mv: cannot move " ++ quotedPath source ++ " to " ++ quotedPath target)
          fun fs => do
            let fs ← (fs.without source).write target f.bytes
            fs.setExecutable target f.executable

/-- Runs a command by its name. -/
def runCommand (sh : Shell) (line : Nat) (input : Array UInt8) (words : List String) : Effect :=
  match runBuiltin? sh line words with
  | some e => e
  | none =>
    match runTool? sh input words with
    | some e => e
    | none =>
      let text := sh.args.headD "sh" ++ ": " ++ toString line ++ ": " ++ words.headD ""
      { ({ shell := sh } : Effect).complain (text ++ ": not found") with status := 127 }

/-- Adds bytes to a sink. -/
def Shell.emit (sh : Shell) (sink : Sink) (bytes : Array UInt8) : Shell :=
  match sink with
  | .stdout => { sh with stdout := sh.stdout ++ bytes }
  | .stderr => { sh with stderr := sh.stderr ++ bytes }
  | .file path =>
    match sh.files.read path with
    | .ok old =>
      match sh.files.write path (old ++ bytes) with
      | .ok files => { sh with files }
      | .error _ => sh
    | .error _ => sh

/-- What redirections come to. -/
structure Channels where
  out : Sink := .stdout
  err : Sink := .stderr
  input : Array UInt8 := #[]

/-- Follows one redirection, or says what is wrong with it. -/
def Shell.redirect (sh : Shell) (c : Channels) : Redirect → Except String (Shell × Channels)
  | .toFile fd append target =>
    let path := sh.expandOne target
    let old := if append then (sh.files.read path).toOption.getD #[] else #[]
    match sh.files.write path old with
    | .ok files =>
      let sh := { sh with files }
      .ok (sh, if fd = 2 then { c with err := .file path } else { c with out := .file path })
    | .error r => .error ("cannot create " ++ path ++ ": " ++ reason "Directory nonexistent" r)
  | .toChannel fd target =>
    let sink := if target = 2 then c.err else c.out
    .ok (sh, if fd = 2 then { c with err := sink } else { c with out := sink })
  | .fromFile target =>
    let path := sh.expandOne target
    match sh.files.read path with
    | .ok input => .ok (sh, { c with input })
    | .error .isADirectory => .ok (sh, c)
    | .error r => .error ("cannot open " ++ path ++ ": " ++ reason "No such file" r)
where
  /-- Why a file cannot be opened; `missing` when there is nothing on the path. -/
  reason (missing : String) (r : IoError) : String :=
    if r = .notFound || r = .notADirectory then missing else r.reason.1

/-- Follows redirections in order. At the first fault it gives the state then and what is wrong. -/
def Shell.redirectAll (sh : Shell) (c : Channels) :
    List Redirect → Shell × Channels × Option String
  | [] => (sh, c, none)
  | r :: rest =>
    match sh.redirect c r with
    | .ok (sh, c) => sh.redirectAll c rest
    | .error text => (sh, c, some text)

/-- The assignment that a word spells. -/
def Word.assignment? (w : Word) : Option (String × Word) :=
  match w.pieces with
  | .text cs :: more =>
    match cs.span (· ≠ '=') with
    | (name, _ :: value) =>
      if name.head?.any startsName && name.all inName then
        some (String.ofList name, { w with pieces := .text value :: more, quoted := true })
      else none
    | _ => none
  | _ => none

/-- Follows assignments in order. -/
def Shell.assign (sh : Shell) (assignments : List (String × Word)) : Shell :=
  assignments.foldl (fun sh (name, value) =>
    { sh with vars := sh.vars.insert name (sh.expandOne value) }) sh

/-- Runs a simple command. A fault in the redirections of a command that belongs to the shell's own
notation ends the script. Assignments before a command are for that command alone. -/
def Shell.simple (sh : Shell) (line : Nat) (words : List Word) (redirects : List Redirect) :
    Shell :=
  let assignments := words.map Word.assignment? |>.takeWhile Option.isSome |>.filterMap id
  let words := (words.drop assignments.length).flatMap sh.expand
  match sh.redirectAll {} redirects with
  | (sh, c, some text) =>
    let text := sh.args.headD "sh" ++ ": " ++ toString line ++ ": " ++ text ++ "\n"
    let special := words.head?.any [":", "exit", "set", "shift"].contains
    { sh.emit c.err text.toUTF8.data with status := 2, exited := sh.exited || special }
  | (sh, c, none) =>
    let sh := if words.isEmpty then sh.assign assignments else sh
    let effect := runCommand sh line c.input words
    let sh := effect.output.foldl (fun sh chunk =>
      match chunk with
      | .out bytes => sh.emit c.out bytes
      | .err bytes => sh.emit c.err bytes) effect.shell
    { sh with status := effect.status }

mutual

/-- Runs a command, unless the script has ended. With `tested` the outcome is asked for, so that a
failure does not end the script. -/
def Shell.run (sh : Shell) (tested : Bool) : Command → Shell
  | .simple line words redirects =>
    if sh.exited then sh
    else
      let sh := sh.simple line words redirects
      { sh with exited := sh.exited || (sh.strict && ! tested && sh.status ≠ 0) }
  | .both a b =>
    let sh := sh.run true a
    if sh.status = 0 then sh.run tested b else sh
  | .either a b =>
    let sh := sh.run true a
    if sh.status = 0 then sh else sh.run tested b
  | .invert c =>
    let sh := sh.run true c
    if sh.exited then sh else { sh with status := if sh.status = 0 then 1 else 0 }
  | .cond test yes no =>
    let sh := sh.runAll true test
    if sh.exited then sh
    else if sh.status = 0 then sh.runAll tested yes
    else if no.isEmpty then { sh with status := 0 }
    else sh.runAll tested no
  | .each name words body =>
    let values := words.flatMap sh.expand
    if sh.exited then sh
    else if values.isEmpty then { sh with status := 0 }
    else
      values.foldl (fun sh value =>
        if sh.exited then sh
        else { sh with vars := sh.vars.insert name value }.runAll tested body) sh

/-- Runs commands in order. -/
def Shell.runAll (sh : Shell) (tested : Bool) : List Command → Shell
  | [] => sh
  | c :: rest =>
    let sh := sh.run tested c
    if sh.exited then sh else sh.runAll tested rest

end

/-- The text of a script without its first line, when that line asks for a shell. -/
def body? (text : String) : Except IoError String :=
  let first := text.toList.takeWhile (· ≠ '\n')
  match first with
  | '#' :: '!' :: rest =>
    let interpreter := blankFields (String.ofList rest)
    if [["/bin/sh"], ["/bin/bash"], ["/usr/bin/env", "sh"], ["/usr/bin/env", "bash"]].contains
        (interpreter.take 2) || interpreter.head? = some "/bin/sh" then
      .ok (String.ofList (text.toList.drop first.length))
    else .error .notFound
  | _ => .error .execFormat

/-- Starts a script and waits for its end. -/
def launch : Launcher := fun fs program args => do
  if (program :: args).any (·.contains '\x00') then throw .nulInArgument
  if ! program.contains '/' then
    match ["true", "false"].findIdx? (· = program) with
    | some status => return (⟨status, #[], #[]⟩, fs)
    | none => throw .notFound
  match ← fs.locate program with
  | .folder => throw .permissionDenied
  | .absent _ => throw .notFound
  | .file _ f =>
    if ! f.executable then throw .permissionDenied
    let text ← body? (Text.ofBytes f.bytes)
    match parse? text with
    | none => return (⟨2, #[], (program ++ ": Syntax error\n").toUTF8.data⟩, fs)
    | some commands =>
      let sh : Shell := { args := program :: args, files := fs }
      let sh := sh.runAll false commands
      return (⟨sh.status, sh.stdout, sh.stderr⟩, sh.files)

end StackCode.Host.Script
