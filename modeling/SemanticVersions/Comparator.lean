import SemanticVersions.Operator
import SemanticVersions.Version.Reader

/-!
# Comparators

A comparator is one condition on a version: none at all, or a comparison with a
fixed version.  A list of comparators is a conjunction.  A prerelease satisfies
a conjunction only if some comparator of it names a prerelease of the same
release, so that no prerelease is taken up unasked.

Two comparators intersect if some version can satisfy both.  An equality is
decided by its own version, and two bounds by their directions and versions.

A comparator text is empty, or a comparison sign and a version with blanks
between them.  Only signs of bounds and of equality are read.
-/

namespace SemanticVersions

/-- A condition on versions. -/
inductive Comparator
  /-- Holds of every version. -/
  | any
  /-- A comparison with the given version. -/
  | bound (operator : Operator) (version : Version)
deriving DecidableEq, Repr

namespace Comparator

/-- The comparator `<0.0.0-0`, which holds of no version. -/
def nullSet : Comparator :=
  bound .less ⟨0, 0, 0, [.numeric 0], []⟩

/-- Whether a comparator is `<0.0.0-0`, with any build. -/
def isNullSet : Comparator → Bool
  | bound .less ⟨0, 0, 0, [.numeric 0], _⟩ => true
  | _ => false

def isAny : Comparator → Bool
  | any => true
  | bound _ _ => false

/-- The operator of a comparator; the one without condition counts as an
equality. -/
def operator : Comparator → Operator
  | any => .equal
  | bound operator _ => operator

def version? : Comparator → Option Version
  | any => none
  | bound _ version => some version

def text : Comparator → Text
  | any => []
  | bound operator version => operator.text ++ version.text

/-- Whether a version meets the condition, prereleases included. -/
def test (comparator : Comparator) (v : Version) : Bool :=
  match comparator with
  | any => true
  | bound operator version => operator.holds v version

/-- Whether a comparator names a prerelease of the release of `v`. -/
def admits (v : Version) : Comparator → Bool
  | any => false
  | bound _ version => version.isPrerelease && version.sameRelease v

/-- Whether a version satisfies all the comparators and, if it is a prerelease,
one of them names a prerelease of its release. -/
def testAll (comparators : List Comparator) (v : Version) : Bool :=
  comparators.all (·.test v) && (!v.isPrerelease || comparators.any (admits v))

/-- Whether two comparators have the same operator and versions of the same
precedence. -/
def isSame : Comparator → Comparator → Bool
  | any, any => true
  | bound operatorA a, bound operatorB b => operatorA == operatorB && a.isSame b
  | _, _ => false

/-! ### Intersection -/

/-- Whether two bounds leave a version between them.  Bounds of one direction
always do; of two directions the lower one must come first, or both must
include one common version. -/
def boundsIntersect (operatorA : Operator) (a : Version) (operatorB : Operator)
    (b : Version) : Bool :=
  (operatorA.isLower && operatorB.isLower) ||
    (operatorA.isUpper && operatorB.isUpper) ||
    (a.text == b.text && operatorA.isInclusive && operatorB.isInclusive) ||
    ((compare a b).isLT && operatorA.isLower && operatorB.isUpper) ||
    ((compare a b).isGT && operatorA.isUpper && operatorB.isLower)

/-- Whether some version can satisfy both comparators.  The version of an
equality is tested against the other side under the prerelease rule; the left
side is asked first. -/
def intersects (left right : Comparator) : Bool :=
  match left, right with
  | any, _ => true
  | bound .equal a, right => testAll [right] a
  | _, any => true
  | left, bound .equal b => testAll [left] b
  | bound operatorA a, bound operatorB b => boundsIntersect operatorA a operatorB b

/-- Whether every two comparators of a list intersect. -/
def isSatisfiable : List Comparator → Bool
  | [] => true
  | comparator :: others => others.all (·.intersects comparator) && isSatisfiable others

/-! ### Reading -/

/-- The version part of a comparator text: all behind the sign and the blanks
after it. -/
def operand (text : Text) : Text :=
  trimStart (spanSign text).2

/-- Whether a text has the form of a comparator, whatever the size of its
numbers. -/
def hasForm (text : Text) : Bool :=
  text.isEmpty || Version.hasForm (operand text)

/-- Reads a comparator.  Where only a number is too large, the version is at
fault, and else the whole text. -/
def read (text : Text) : Except Error Comparator :=
  if text.isEmpty then
    .ok any
  else if Version.hasForm (operand text) then do
    let operator ← Operator.read (spanSign text).1
    let version ← Version.read (operand text)
    return bound operator version
  else
    .error (.invalidComparator text)

end Comparator

end SemanticVersions
