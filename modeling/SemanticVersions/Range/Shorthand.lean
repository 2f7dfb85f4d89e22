import SemanticVersions.Range.Bound
import SemanticVersions.Range.Partial

/-!
# Shorthands

A caret, a tilde and a comparison with a partial version each stand for one or
two bounds.  A shorthand without bounds is met by every version.
-/

namespace SemanticVersions

/-- A token that stands for bounds. -/
inductive Shorthand
  /-- `^1.2.3`: the versions compatible with the given one. -/
  | caret (version : Partial)
  /-- `~1.2.3`: the versions that share the minor number. -/
  | tilde (version : Partial)
  /-- `>1.2`: the versions whose leading numbers compare as asked. -/
  | compared (operator : Operator) (version : Partial)
deriving DecidableEq, Repr

namespace Shorthand

/-- The bounds of a caret: the first nonzero number stays, or the last one
given if all are zero. -/
def caretBounds? : Partial → Option (List Bound)
  | .any => some []
  | .major M => do
    return [.atLeast M 0 0 [], .below (← Bound.next? M) 0 0]
  | .minor M m => do
    if M = 0 then
      return [.atLeast M m 0 [], .below M (← Bound.next? m) 0]
    else
      return [.atLeast M m 0 [], .below (← Bound.next? M) 0 0]
  | .full M m p prerelease => do
    if M = 0 then
      if m = 0 then
        return [.atLeast M m p prerelease, .below M m (← Bound.next? p)]
      else
        return [.atLeast M m p prerelease, .below M (← Bound.next? m) 0]
    else
      return [.atLeast M m p prerelease, .below (← Bound.next? M) 0 0]

/-- The bounds of a tilde: the minor number stays, or the major number if no
other is given. -/
def tildeBounds? : Partial → Option (List Bound)
  | .any => some []
  | .major M => do
    return [.atLeast M 0 0 [], .below (← Bound.next? M) 0 0]
  | .minor M m => do
    return [.atLeast M m 0 [], .below M (← Bound.next? m) 0]
  | .full M m p prerelease => do
    return [.atLeast M m p prerelease, .below M (← Bound.next? m) 0]

/-- A release `M.m.0` whose numbers a version can hold. -/
def fitting? (release : Nat × Nat) : Option (Nat × Nat) :=
  if release.1 ≤ maxWord ∧ release.2 ≤ maxWord then some release else none

/-- The bounds of a comparison with all versions from the release `first` up to
the release `after?`, where the second is left out if it cannot be held. -/
def lineBounds? (operator : Operator) (first : Nat × Nat) (after? : Option (Nat × Nat)) :
    Option (List Bound) :=
  match operator with
  | .greater => do
    let (M, m) ← after? >>= fitting?
    return [.atLeast M m 0 []]
  | .greaterEqual => do
    let (M, m) ← fitting? first
    return [.atLeast M m 0 []]
  | .less => do
    let (M, m) ← fitting? first
    return [.below M m 0]
  | .lessEqual => do
    let (M, m) ← after? >>= fitting?
    return [.below M m 0]
  | _ => do
    let (M, m) ← after?
    return [.atLeast first.1 first.2 0 [], .below M m 0]

/-- The bounds of a comparison with a partial version.  No version is before or
behind all versions. -/
def comparedBounds? (operator : Operator) : Partial → Option (List Bound)
  | .any =>
    match operator with
    | .greater | .less => some [.below 0 0 0]
    | _ => some []
  | .major M => lineBounds? operator (M, 0) ((Bound.next? M).map (·, 0))
  | .minor M m => lineBounds? operator (M, m) ((Bound.next? m).map (M, ·))
  | .full M m p prerelease =>
    some [{ operator, major := M, minor := m, patch := p, prerelease }]

/-- The bounds that a shorthand stands for, if their numbers can be held. -/
def bounds? : Shorthand → Option (List Bound)
  | caret version => caretBounds? version
  | tilde version => tildeBounds? version
  | compared operator version => comparedBounds? operator version

/-- Reads a comparison with a partial version.  A full version is a comparator
of its own and no shorthand. -/
def readCompared? (token : Text) : Option Shorthand :=
  match Operator.read (spanSign token).1, Partial.read? (spanSign token).2 with
  | .ok _, some (.full _ _ _ _) => none
  | .ok operator, some version => some (compared operator version)
  | _, _ => none

def read? (token : Text) : Option Shorthand :=
  match token with
  | '^' :: rest => (Partial.read? rest).map caret
  | '~' :: '>' :: rest => (Partial.read? rest).map tilde
  | '~' :: rest => (Partial.read? rest).map tilde
  | token => readCompared? token

end Shorthand

end SemanticVersions
