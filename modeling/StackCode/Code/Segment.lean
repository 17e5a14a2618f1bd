import StackCode.Code.Malformed

/-!
# Stretches of code

A segment is a run of instructions that stands somewhere in a program; it knows the index of its
first instruction, so that a fault found in it names the place in the whole program. Every consumer
of code cuts branches, loops and bodies out of it with `Segment.takeBlock`, which counts the nesting
of blocks.
-/

namespace StackCode

/-- A run of instructions, the first of which has index `start` in its program. -/
structure Segment where
  start : Nat
  code : List Instruction
deriving DecidableEq, Repr, Inhabited

namespace Segment

/-- The index after the last instruction. -/
def stop (s : Segment) : Nat := s.start + s.code.length

/-- Cuts the code that starts at `index` before the mark `sought`, where `depth` blocks are open and
the instructions of `acc` (the last one first) were passed. A mark inside an open block belongs to
that block. Gives the code before the mark, the index of the mark, and the code after it. -/
def splitBlock (sought : Terminator) (label : Option BlockLabel) :
    Nat → Nat → List Instruction → List Instruction →
      Except Malformed (List Instruction × Nat × List Instruction)
  | index, _, [], _ => .error ⟨index, .missing sought, none⟩
  | index, depth, i :: rest, acc =>
    if depth = 0 ∧ i.op.terminator? = some sought then
      match label with
      | none => .ok (acc.reverse, index, rest)
      | some expected =>
        if i.op.label? = some expected then .ok (acc.reverse, index, rest)
        else .error ⟨index, .wrongEnd expected i.op, none⟩
    else if i.op.opens?.isSome then splitBlock sought label (index + 1) (depth + 1) rest (i :: acc)
    else
      match i.op.label?, depth with
      | some ended, 0 => .error ⟨index, .endBefore ended sought, none⟩
      | some _, depth + 1 => splitBlock sought label (index + 1) depth rest (i :: acc)
      | none, depth => splitBlock sought label (index + 1) depth rest (i :: acc)

/-- Cuts the segment at the mark that ends the current block: gives what stands before the mark and
what stands after it. When a label is given, the mark has to carry it. -/
def takeBlock (s : Segment) (sought : Terminator) (label : Option BlockLabel) :
    Except Malformed (Segment × Segment) := do
  let (body, mark, rest) ← splitBlock sought label s.start 0 s.code []
  return (⟨s.start, body⟩, ⟨mark + 1, rest⟩)

end Segment

/-- A segment with a cursor: the number of its instructions that were passed. -/
structure Stream where
  segment : Segment
  cursor : Nat
  /-- The cursor is in the segment, or at its end. -/
  inside : cursor ≤ segment.code.length
deriving DecidableEq, Repr

namespace Stream

/-- The stream of a segment, at its start. -/
def ofSegment (segment : Segment) : Stream := ⟨segment, 0, Nat.zero_le _⟩

/-- The stream of a whole program, at its start. -/
def ofCode (code : List Instruction) : Stream := ofSegment ⟨0, code⟩

instance : Inhabited Stream := ⟨ofCode []⟩

/-- The number of instructions. -/
def length (s : Stream) : Nat := s.segment.code.length

/-- Whether there are no instructions. -/
def isEmpty (s : Stream) : Bool := s.segment.code.isEmpty

/-- The stream with its cursor at `n`, or at its end if that comes first. -/
def moveTo (s : Stream) (n : Nat) : Stream := ⟨s.segment, min n s.length, Nat.min_le_right _ _⟩

/-- The index in the program of the instruction at `n`. -/
def absolute (s : Stream) (n : Nat) : Nat := s.segment.start + n

/-- The index in the program of the instruction passed last. -/
def currentIndex (s : Stream) : Nat := s.segment.start + s.cursor - 1

/-- What follows the cursor. -/
def rest (s : Stream) : Segment :=
  ⟨s.segment.start + s.cursor, s.segment.code.drop s.cursor⟩

/-- The next instruction, and the stream behind it. -/
def next? (s : Stream) : Option (Instruction × Stream) :=
  s.rest.code.head?.map fun i => (i, s.moveTo (s.cursor + 1))

/-- Cuts the current block out: gives it as a stream of its own, and moves the cursor behind the
mark. A search that fails leaves the cursor where it is. -/
def fetch (sought : Terminator) (label : Option BlockLabel) : EStateM Malformed Stream Stream :=
  fun s =>
    match s.rest.takeBlock sought label with
    | .ok (body, rest) => .ok (ofSegment body) (s.moveTo (rest.start - s.segment.start))
    | .error e => .error e s

/-- The current block, and the stream behind it. -/
def fetchBlock (s : Stream) (sought : Terminator) (label : Option BlockLabel) :
    Except Malformed (Stream × Stream) :=
  match fetch sought label s with
  | .ok body s' => .ok (body, s')
  | .error e _ => .error e

/-- What a visitor does after an instruction: goes on with a stream, or stops with an answer. -/
inductive Visit (σ β : Type) where
  | continue (state : σ) (stream : Stream)
  | stop (state : σ) (stream : Stream) (answer : β)

/-- Visits the remaining instructions in order, at most `n` of them. The visitor sees the stream
behind the instruction and may pass more of it. -/
def walk {σ β : Type} (visit : σ → Instruction → Stream → Visit σ β) :
    Nat → σ → Stream → σ × Stream × Option β
  | 0, state, s => (state, s, none)
  | n + 1, state, s =>
    match s.next? with
    | none => (state, s, none)
    | some (i, s') =>
      match visit state i s' with
      | .continue state' s'' => walk visit n state' s''
      | .stop state' s'' answer => (state', s'', some answer)

end Stream

end StackCode
