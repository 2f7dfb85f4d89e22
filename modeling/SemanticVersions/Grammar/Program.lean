import SemanticVersions.Grammar.Pattern

/-!
# Programs

A pattern is carried out by a program of numbered instructions.  Where a
pattern leaves a choice the program forks, and the way that is tried first
leads to the match that is preferred.
-/

namespace SemanticVersions.Grammar

/-- One step of a program.  Unless it says otherwise, a step goes on to the next
instruction. -/
inductive Instruction
  /-- Takes a character of a class. -/
  | read (chars : CharClass)
  /-- Goes on at an address. -/
  | goto (target : Nat)
  /-- Goes on at two addresses, with the first preferred. -/
  | fork (first second : Nat)
  /-- Notes the place under a number. -/
  | note (slot : Nat)
  /-- Goes on only at the start of the text. -/
  | atStart
  /-- Goes on only at the end of the text. -/
  | atEnd
  /-- Ends with a match. -/
  | finish
deriving DecidableEq, Repr

namespace Pattern

/-- The instructions of a pattern from an address on.  The captures of the
pattern are numbered from `index`, and capture `i` notes its two ends under
`2 * i` and `2 * i + 1`. -/
def compile (pattern : Pattern) (address index : Nat) : List Instruction :=
  match pattern with
  | textStart => [.atStart]
  | textEnd => [.atEnd]
  | one chars => [.read chars]
  | many chars => [.fork (address + 1) (address + 3), .read chars, .goto address]
  | several chars => [.read chars, .fork address (address + 2)]
  | seq first second =>
    let head := first.compile address index
    head ++ second.compile (address + head.length) (index + first.captures)
  | either first second =>
    let left := first.compile (address + 1) index
    let middle := address + left.length + 2
    let right := second.compile middle (index + first.captures)
    .fork (address + 1) middle :: left ++ .goto (middle + right.length) :: right
  | optional inner =>
    let body := inner.compile (address + 1) index
    .fork (address + 1) (address + 1 + body.length) :: body
  | repeated inner =>
    let body := inner.compile (address + 1) index
    .fork (address + 1) (address + 2 + body.length) :: body ++ [.goto address]
  | group inner => inner.compile address index
  | capture inner =>
    .note (2 * index) :: inner.compile (address + 1) (index + 1) ++ [.note (2 * index + 1)]

/-- The program of a pattern, which captures its whole match under number
zero. -/
def program (pattern : Pattern) : Array Instruction :=
  ((capture pattern).compile 0 0 ++ [Instruction.finish]).toArray

end Pattern

end SemanticVersions.Grammar
