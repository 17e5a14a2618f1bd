/-!
# Shell scripts

The part of the shell's notation that scripts in the place of a compiler use: simple commands with
quoting, parameters, assignments and redirections, lists with `;`, `&&` and `||`, conditionals, and
loops over words.

The readers below are bounded by the length of the script: each call takes at least one character or
token away.
-/

namespace StackCode.Host.Script

/-- A parameter of a script. -/
inductive Param where
  /-- An argument, by number; number zero is the script itself. -/
  | arg (n : Nat)
  /-- All arguments; inside quotes each stays a word of its own. -/
  | all
  /-- All arguments; inside quotes they are one word, parted by blanks. -/
  | joined
  /-- How many arguments there are. -/
  | count
  /-- The status of the last command. -/
  | status
  /-- The script as the system knows it. -/
  | self
  | var (name : String)
deriving DecidableEq, Repr

/-- A piece of a word. -/
inductive Piece where
  | text (s : List Char)
  | param (p : Param) (quoted : Bool)
deriving DecidableEq, Repr

/-- A word before its parameters are filled in. A word with quotes in it is kept also when it is
empty. -/
structure Word where
  pieces : List Piece := []
  quoted : Bool := false
deriving DecidableEq, Repr

/-- Where output goes to or input comes from. -/
inductive Redirect where
  /-- Output of channel `fd` goes into a file, after what is there already when `append`. -/
  | toFile (fd : Nat) (append : Bool) (target : Word)
  /-- Output of channel `fd` goes where that of `target` goes. -/
  | toChannel (fd target : Nat)
  | fromFile (target : Word)
deriving DecidableEq, Repr

/-- A command. -/
inductive Command where
  /-- A command that starts on line `line`. -/
  | simple (line : Nat) (words : List Word) (redirects : List Redirect)
  /-- Runs the second command when the first one succeeds. -/
  | both (first second : Command)
  /-- Runs the second command when the first one fails. -/
  | either (first second : Command)
  /-- Succeeds when the command fails. -/
  | invert (command : Command)
  | cond (test yes no : List Command)
  /-- Runs the commands once for each word. -/
  | each (name : String) (words : List Word) (body : List Command)
deriving Repr, Inhabited

/-- A token of a script. -/
inductive Token where
  /-- A word that starts on line `line`. -/
  | word (line : Nat) (w : Word)
  /-- A semicolon or a line end. -/
  | separator
  | andIf
  | orIf
  | output (fd : Nat) (append : Bool)
  | outputChannel (fd : Nat)
  | input
  /-- Notation that is not known here. -/
  | other (c : Char)
deriving DecidableEq, Repr

/-! ## Tokens -/

/-- Whether the character ends a word. -/
def endsWord (c : Char) : Bool :=
  c = ' ' || c = '\t' || c = '\n' || c = ';' || c = '&' || c = '|' || c = '<' || c = '>'
    || c = '(' || c = ')'

/-- Whether the character may start a name. -/
def startsName (c : Char) : Bool := c.isAlpha || c = '_'

/-- Whether the character may stand in a name. -/
def inName (c : Char) : Bool := startsName c || c.isDigit

/-- The parameter that follows a dollar sign, and what comes after it. -/
def param? : List Char → Option (Param × List Char)
  | '@' :: rest => some (.all, rest)
  | '*' :: rest => some (.joined, rest)
  | '#' :: rest => some (.count, rest)
  | '?' :: rest => some (.status, rest)
  | '$' :: rest => some (.self, rest)
  | '\x7b' :: rest =>
    match rest.span (· ≠ '\x7d') with
    | (name, _ :: after) => (named? name).map fun p => (p, after)
    | (_, []) => none
  | c :: rest =>
    if c.isDigit then some (.arg (c.toNat - 48), rest)
    else if startsName c then some (.var (String.ofList (c :: rest.takeWhile inName)),
      rest.dropWhile inName)
    else none
  | [] => none
where
  /-- The parameter with a name between braces. -/
  named? : List Char → Option Param
    | ['@'] => some .all
    | ['*'] => some .joined
    | ['#'] => some .count
    | ['?'] => some .status
    | cs =>
      if cs.isEmpty then none
      else if cs.all Char.isDigit then (String.ofList cs).toNat?.map .arg
      else if cs.head?.any startsName && cs.all inName then some (.var (String.ofList cs))
      else none

/-- Adds text to a word. -/
def Word.add (w : Word) (c : Char) : Word :=
  match w.pieces.getLast? with
  | some (.text s) => { w with pieces := w.pieces.dropLast ++ [.text (s ++ [c])] }
  | _ => { w with pieces := w.pieces ++ [.text [c]] }

/-- Adds a parameter to a word. -/
def Word.addParam (w : Word) (p : Param) (quoted : Bool) : Word :=
  { w with pieces := w.pieces ++ [.param p quoted] }

/-- Where the reader of a word stands. -/
inductive Quoting where
  | plain | single | double
deriving DecidableEq, Repr

/-- Reads the rest of a word. -/
def wordWithin : Nat → Quoting → Word → List Char → Word × List Char
  | 0, _, w, rest => (w, rest)
  | _, _, w, [] => (w, [])
  | n + 1, .single, w, c :: rest =>
    if c = '\'' then wordWithin n .plain w rest else wordWithin n .single (w.add c) rest
  | n + 1, .double, w, c :: rest =>
    match c, rest with
    | '"', _ => wordWithin n .plain w rest
    | '\\', e :: rest' =>
      if e = '\n' then wordWithin n .double w rest'
      else if e = '"' || e = '\\' || e = '$' || e = '\x60' then
        wordWithin n .double (w.add e) rest'
      else wordWithin n .double (w.add c) rest
    | '$', _ =>
      match param? rest with
      | some (p, rest') => wordWithin n .double (w.addParam p true) rest'
      | none => wordWithin n .double (w.add c) rest
    | _, _ => wordWithin n .double (w.add c) rest
  | n + 1, .plain, w, c :: rest =>
    match c, rest with
    | '\'', _ => wordWithin n .single { w with quoted := true } rest
    | '"', _ => wordWithin n .double { w with quoted := true } rest
    | '\\', e :: rest' =>
      if e = '\n' then wordWithin n .plain w rest'
      else wordWithin n .plain { w.add e with quoted := true } rest'
    | '$', _ =>
      match param? rest with
      | some (p, rest') => wordWithin n .plain (w.addParam p false) rest'
      | none => wordWithin n .plain (w.add c) rest
    | _, _ => if endsWord c then (w, c :: rest) else wordWithin n .plain (w.add c) rest

/-- Reads the tokens of the rest of a script, which has `lines` lines in all. -/
def tokensWithin (lines : Nat) : Nat → List Char → List Token
  | 0, _ => []
  | _, [] => []
  | n + 1, c :: rest =>
    match c, rest with
    | ' ', _ | '\t', _ => tokensWithin lines n rest
    | '\n', _ | ';', _ => .separator :: tokensWithin lines n rest
    | '#', _ => tokensWithin lines n (rest.dropWhile (· ≠ '\n'))
    | '&', '&' :: rest' => .andIf :: tokensWithin lines n rest'
    | '|', '|' :: rest' => .orIf :: tokensWithin lines n rest'
    | '>', _ => output n 1 rest
    | '<', _ => .input :: tokensWithin lines n rest
    | '1', '>' :: rest' => output n 1 rest'
    | '2', '>' :: rest' => output n 2 rest'
    | _, _ =>
      if endsWord c then .other c :: tokensWithin lines n rest
      else
        let (w, rest') := wordWithin (rest.length + 1) .plain {} (c :: rest)
        .word (lines - rest.count '\n') w :: tokensWithin lines n rest'
termination_by n => (n, 0)
decreasing_by all_goals exact .left _ _ (Nat.lt_add_one _)
where
  /-- The token for output of channel `fd`, after the arrow. -/
  output (n fd : Nat) : List Char → List Token
    | '>' :: rest => .output fd true :: tokensWithin lines n rest
    | '&' :: rest => .outputChannel fd :: tokensWithin lines n rest
    | rest => .output fd false :: tokensWithin lines n rest
  termination_by (n, 1)
  decreasing_by all_goals exact .right _ Nat.zero_lt_one

/-- The tokens of a script. -/
def tokens (text : String) : List Token :=
  tokensWithin (text.toList.count '\n' + 1) text.length text.toList

/-! ## Commands -/

/-- The text of a word without quotes and parameters. -/
def Word.bare? (w : Word) : Option String :=
  match w.quoted, w.pieces with
  | false, [.text s] => some (String.ofList s)
  | _, _ => none

/-- The bare word at the front. -/
def keyword? : List Token → Option String
  | .word _ w :: _ => w.bare?
  | _ => none

/-- Drops separators. -/
def skipSeparators : List Token → List Token
  | .separator :: rest => skipSeparators rest
  | ts => ts

/-- Drops the keyword that has to come now. -/
def expect (keyword : String) (ts : List Token) : Option (List Token) :=
  if keyword? ts = some keyword then some ts.tail else none

/-- Words that end a list of commands. -/
def closers : List String := ["then", "elif", "else", "fi", "do", "done"]

/-- Reads the rest of a simple command. -/
def simpleWithin (line : Nat) :
    Nat → List Word → List Redirect → List Token → Option (Command × List Token)
  | 0, _, _, _ => none
  | n + 1, words, redirects, ts =>
    match ts with
    | .word _ w :: rest => simpleWithin line n (words ++ [w]) redirects rest
    | .output fd append :: .word _ w :: rest =>
      simpleWithin line n words (redirects ++ [.toFile fd append w]) rest
    | .outputChannel fd :: .word _ w :: rest =>
      match w.bare? with
      | some "1" => simpleWithin line n words (redirects ++ [.toChannel fd 1]) rest
      | some "2" => simpleWithin line n words (redirects ++ [.toChannel fd 2]) rest
      | _ => none
    | .input :: .word _ w :: rest =>
      simpleWithin line n words (redirects ++ [.fromFile w]) rest
    | .other _ :: _ | .output .. :: _ | .outputChannel _ :: _ | .input :: _ => none
    | _ =>
      if words.isEmpty && redirects.isEmpty then none
      else some (.simple line words redirects, ts)

/-- The line on which the first word stands. -/
def lineOf (ts : List Token) : Nat :=
  (ts.findSome? fun
    | .word line _ => some line
    | _ => none).getD 0

/-- The words at the front. -/
def takeWords : List Token → List Word × List Token
  | .word _ w :: rest =>
    let (words, rest) := takeWords rest
    (w :: words, rest)
  | ts => ([], ts)

mutual

/-- Reads a list of commands up to a word that ends it. -/
def listWithin : Nat → List Token → Option (List Command × List Token)
  | 0, _ => none
  | n + 1, ts => do
    let ts := skipSeparators ts
    if ts.isEmpty || (keyword? ts).any closers.contains then return ([], ts)
    let (command, ts) ← chainWithin n ts
    let (more, ts) ← listWithin n ts
    return (command :: more, ts)

/-- Reads commands that depend on each other. -/
def chainWithin : Nat → List Token → Option (Command × List Token)
  | 0, _ => none
  | n + 1, ts => do
    let (first, ts) ← commandWithin n ts
    linksWithin n first ts

/-- Reads what depends on a command. -/
def linksWithin : Nat → Command → List Token → Option (Command × List Token)
  | 0, _, _ => none
  | n + 1, first, ts =>
    match ts with
    | .andIf :: rest => do
      let (second, ts) ← commandWithin n (skipSeparators rest)
      linksWithin n (.both first second) ts
    | .orIf :: rest => do
      let (second, ts) ← commandWithin n (skipSeparators rest)
      linksWithin n (.either first second) ts
    | ts => some (first, ts)

/-- Reads one command. -/
def commandWithin : Nat → List Token → Option (Command × List Token)
  | 0, _ => none
  | n + 1, ts =>
    match keyword? ts with
    | some "!" => do
      let (c, ts) ← commandWithin n ts.tail
      return (.invert c, ts)
    | some "if" => condWithin n ts.tail
    | some "for" => do
      let name ← keyword? ts.tail
      let ts ← expect "in" ts.tail.tail
      let (words, ts) := takeWords ts
      let ts ← expect "do" (skipSeparators ts)
      let (body, ts) ← listWithin n ts
      let ts ← expect "done" ts
      return (.each name words body, ts)
    | _ => simpleWithin (lineOf ts) (ts.length + 1) [] [] ts

/-- Reads a conditional after its first word. -/
def condWithin : Nat → List Token → Option (Command × List Token)
  | 0, _ => none
  | n + 1, ts => do
    let (test, ts) ← listWithin n ts
    let ts ← expect "then" ts
    let (yes, ts) ← listWithin n ts
    match keyword? ts with
    | some "elif" =>
      let (no, ts) ← condWithin n ts.tail
      return (.cond test yes [no], ts)
    | some "else" =>
      let (no, ts) ← listWithin n ts.tail
      let ts ← expect "fi" ts
      return (.cond test yes no, ts)
    | _ =>
      let ts ← expect "fi" ts
      return (.cond test yes [], ts)

end

/-- The commands of a script; none when its notation is not known here. -/
def parse? (text : String) : Option (List Command) :=
  let ts := tokens text
  match listWithin (4 * ts.length + 4) ts with
  | some (commands, []) => some commands
  | _ => none

end StackCode.Host.Script
