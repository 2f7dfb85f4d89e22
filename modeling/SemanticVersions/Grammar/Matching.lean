import SemanticVersions.Grammar.Program

/-!
# Matching

All ways through a program are followed at once, one character of the text
after the other, in their order of preference.  What follows an instruction
depends on the instruction and the place alone, so of two ways that meet only
the preferred one is followed, and the work is bounded by the length of the
text times that of the program.
-/

namespace SemanticVersions.Grammar

/-- A place in a text: the number of bytes in front of it, and what is left. -/
structure Place where
  offset : Nat
  rest : Text
deriving DecidableEq, Repr

/-- The part of a text between two places. -/
structure Span where
  start : Place
  stop : Place
deriving DecidableEq, Repr

namespace Span

def text (span : Span) : Text :=
  span.start.rest.take (span.start.rest.length - span.stop.rest.length)

def isEmpty (span : Span) : Bool :=
  span.start.offset == span.stop.offset

end Span

/-- A way through a program: the next instruction, and the places noted so far,
the latest in front. -/
structure Thread where
  address : Nat
  notes : List (Nat × Place)
deriving DecidableEq, Repr

/-- The threads at one place, the preferred one last.  The bits of `seen` are
the addresses that were reached. -/
structure Frontier where
  seen : Nat
  threads : List Thread
deriving DecidableEq, Repr

namespace Frontier

def empty : Frontier := { seen := 0, threads := [] }

/-- Follows a thread up to instructions that take a character or end with a
match.  No path visits an address twice, so the size of the program bounds
`steps`. -/
def follow (program : Array Instruction) (place : Place) (steps : Nat)
    (frontier : Frontier) (thread : Thread) : Frontier :=
  match steps with
  | 0 => frontier
  | steps + 1 =>
    if frontier.seen.testBit thread.address then
      frontier
    else
      let frontier := { frontier with seen := frontier.seen ||| (1 <<< thread.address) }
      let goOn := fun address notes =>
        follow program place steps frontier { address, notes }
      match program[thread.address]? with
      | some (.goto target) => goOn target thread.notes
      | some (.fork first second) =>
        follow program place steps (goOn first thread.notes) { thread with address := second }
      | some (.note slot) => goOn (thread.address + 1) ((slot, place) :: thread.notes)
      | some .atStart =>
        if place.offset == 0 then goOn (thread.address + 1) thread.notes else frontier
      | some .atEnd =>
        if place.rest.isEmpty then goOn (thread.address + 1) thread.notes else frontier
      | _ => { frontier with threads := thread :: frontier.threads }

def add (program : Array Instruction) (place : Place) (frontier : Frontier)
    (thread : Thread) : Frontier :=
  follow program place (program.size + 1) frontier thread

end Frontier

namespace Thread

def take? (program : Array Instruction) (c : Char) (thread : Thread) : Option Thread :=
  match program[thread.address]? with
  | some (.read chars) =>
    if chars.holds c then some { thread with address := thread.address + 1 } else none
  | _ => none

def isFinished (program : Array Instruction) (thread : Thread) : Bool :=
  program[thread.address]? == some .finish

def captured? (thread : Thread) (index : Nat) : Option Span := do
  let stop ← thread.notes.lookup (2 * index + 1)
  let start ← thread.notes.lookup (2 * index)
  return { start, stop }

end Thread

/-- The thread of the preferred match; `threads` are those at a place with the
text still to come, in order of preference.  A match ends the threads that
are preferred less. -/
def finished? (program : Array Instruction) (threads : List Thread) (offset : Nat)
    (text : Text) : Option Thread :=
  let preferred := threads.takeWhile (!·.isFinished program)
  let here := threads.find? (·.isFinished program)
  match text with
  | [] => here
  | c :: rest =>
    if preferred.isEmpty then
      here
    else
      let offset := offset + c.utf8Size
      let next := (preferred.filterMap (·.take? program c)).foldl
        (Frontier.add program { offset, rest }) Frontier.empty
      (finished? program next.threads.reverse offset rest).or here

namespace Pattern

/-- A match: the captures of a pattern by number, where number zero is the whole
match and a capture that took no part is absent. -/
abbrev Match := List (Option Span)

/-- The match of a program at a place, for a pattern with `captures` captures. -/
def matchAt? (program : Array Instruction) (captures : Nat) (place : Place) :
    Option Match :=
  let start := Frontier.add program place Frontier.empty { address := 0, notes := [] }
  (finished? program start.threads.reverse place.offset place.rest).map fun thread =>
    (List.range (captures + 1)).map thread.captured?

def wholeSpan? (found : Match) : Option Span :=
  found.head?.join

/-- The match at a place, unless the place lies inside the last match, or the
match is empty and touches the last one. -/
def freshMatch? (program : Array Instruction) (captures : Nat) (last : Option Nat)
    (place : Place) : Option Match :=
  if place.offset < last.getD 0 then
    none
  else
    (matchAt? program captures place).filter fun found =>
      !((wholeSpan? found).any (·.isEmpty) && last == some place.offset)

/-- The matches of a program from a place on; `last` is where the last match
ended. -/
def matchesFrom (program : Array Instruction) (captures : Nat) (last : Option Nat)
    (offset : Nat) (text : Text) : List Match :=
  let found := freshMatch? program captures last { offset, rest := text }
  let last := ((found.bind wholeSpan?).map (·.stop.offset)).or last
  let later :=
    match text with
    | [] => []
    | c :: rest => matchesFrom program captures last (offset + c.utf8Size) rest
  found.toList ++ later

/-- The matches of a pattern in a text, from the left and without overlap. -/
def matchesIn (pattern : Pattern) (text : Text) : List Match :=
  matchesFrom pattern.program pattern.captures none 0 text

end Pattern

end SemanticVersions.Grammar
