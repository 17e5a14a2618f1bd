/-!
# Paths

A path leads from the root or from the working folder to a file or folder, step by step. A step is a
name, a dot for the folder where it is taken, or two dots for the folder around that.
-/

namespace StackCode.Host

/-- Where a file or folder is: the names on the way to it from the root or from the working folder.
In the latter case steps up may come first. -/
structure Place where
  rooted : Bool := false
  names : List String := []
deriving DecidableEq, Repr, Inhabited

namespace Place

/-- The place of a name in the folder at `p`. -/
def child (p : Place) (name : String) : Place := { p with names := p.names ++ [name] }

/-- The place of the folder around. The root is around itself. -/
def parent (p : Place) : Place :=
  if ! p.rooted && p.names.all (· = "..") then p.child ".."
  else { p with names := p.names.dropLast }

/-- Whether there is a folder in any case: the root, the working folder and those around it. -/
def isGiven (p : Place) : Bool := p.names.all (· = "..")

/-- The shortest path to the place. -/
def text (p : Place) : String :=
  (if p.rooted then "/" else "") ++ "/".intercalate p.names

end Place

/-- A path. -/
structure Path where
  start : Place
  steps : List String
  /-- Whether a slash follows the last step: the path can only be that of a folder. -/
  slash : Bool
deriving DecidableEq, Repr, Inhabited

namespace Path

/-- The path that a text spells. -/
def ofText (s : String) : Path :=
  { start := { rooted := s.startsWith "/" }
    steps := (s.splitOn "/").filter (· ≠ "")
    slash := s.endsWith "/" }

/-- The place after a step. -/
def step (here : Place) (s : String) : Place :=
  if s = "." then here else if s = ".." then here.parent else here.child s

/-- Whether the step is a name. -/
def isName (s : String) : Bool := s ≠ "." && s ≠ ".."

/-- The places on the way, the last one included. -/
def places (p : Path) : List Place :=
  (List.range (p.steps.length + 1)).map fun n => (p.steps.take n).foldl step p.start

end Path

end StackCode.Host
