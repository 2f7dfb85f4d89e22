import SemanticVersions.Operator

/-!
# Bounds

A bound is a comparator as it is written out for a shorthand.  Its numbers may
still be too large for a version; this is found when the bound is read.
-/

namespace SemanticVersions

/-- A comparator that is written out for a shorthand. -/
structure Bound where
  operator : Operator
  major : Nat
  minor : Nat
  patch : Nat
  prerelease : List Text := []
deriving DecidableEq, Repr

namespace Bound

def text (bound : Bound) : Text :=
  bound.operator.text ++ decimal bound.major ++ '.' :: decimal bound.minor ++
    '.' :: decimal bound.patch ++ Version.markedText '-' bound.prerelease

/-- The bound `>=major.minor.patch`, with a prerelease if there is one. -/
def atLeast (major minor patch : Nat) (prerelease : List Text) : Bound :=
  { operator := .greaterEqual, major, minor, patch, prerelease }

def atMost (major minor patch : Nat) (prerelease : List Text) : Bound :=
  { operator := .lessEqual, major, minor, patch, prerelease }

/-- The bound `<major.minor.patch-0`, which keeps out the prereleases of the
release that it names. -/
def below (major minor patch : Nat) : Bound :=
  { operator := .less, major, minor, patch, prerelease := [['0']] }

def next? (n : Nat) : Option Nat :=
  if n < maxWord then some (n + 1) else none

def textOfList (bounds : List Bound) : Text :=
  joinWith [' '] (bounds.map text)

end Bound

end SemanticVersions
