import SemanticVersions.Version.Reader

/-!
# Partial versions

A partial version leaves out its last numbers, or has a wildcard `x`, `X` or
`*` in their place.  Whatever stands behind the first wildcard has no meaning,
so a partial version is known by the numbers in front of it.
-/

namespace SemanticVersions

/-- A version cut at its first wildcard or missing number. -/
inductive Partial
  /-- The major number is a wildcard. -/
  | any
  /-- Only the major number is given. -/
  | major (major : Nat)
  /-- The major and the minor number are given. -/
  | minor (major minor : Nat)
  /-- All numbers are given, and the identifiers of a prerelease if there is
  one. -/
  | full (major minor patch : Nat) (prerelease : List Text)
deriving DecidableEq, Repr

/-- A number of a partial version, or a wildcard. -/
inductive Component
  | number (value : Nat)
  | wildcard
deriving DecidableEq, Repr

namespace Component

/-- Reads a plain numeral or a wildcard. -/
def read? (text : Text) : Option Component :=
  match text with
  | ['x'] => some wildcard
  | ['X'] => some wildcard
  | ['*'] => some wildcard
  | text => if isPlainNumeral text then some (number (decimalValue text)) else none

end Component

namespace Partial

def isLead (c : Char) : Bool :=
  c == 'v' || c == '=' || isBlank c

/-- Cuts one to three components at the first wildcard. -/
def ofComponents? (components : List Component) (prerelease : List Text) :
    Option Partial :=
  match components with
  | [.wildcard] | [.wildcard, _] | [.wildcard, _, _] => some any
  | [.number M] | [.number M, .wildcard] | [.number M, .wildcard, _] => some (major M)
  | [.number M, .number m] | [.number M, .number m, .wildcard] => some (minor M m)
  | [.number M, .number m, .number p] => some (full M m p prerelease)
  | _ => none

/-- The partial version with the given fields.  Only behind three components
may a prerelease or a build stand. -/
def ofFields? (fields : Fields) : Option Partial := do
  let components ← fields.release.mapM Component.read?
  if fields.suffixAbsent || (components.length == 3 && fields.suffixAllowed) then
    ofComponents? components (fields.prerelease.getD [])
  else
    none

/-- Reads a partial version behind any run of `v`, `=` and blanks. -/
def read? (text : Text) : Option Partial :=
  ofFields? (Fields.ofText (text.dropWhile isLead))

end Partial

end SemanticVersions
