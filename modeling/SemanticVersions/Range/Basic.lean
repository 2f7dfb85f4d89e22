import SemanticVersions.Comparator

/-!
# Ranges

A range is a disjunction of alternatives, and an alternative is a conjunction
of comparators.  Ranges are the same if their canonical texts are, whatever
they were read from.
-/

namespace SemanticVersions

/-- A set of versions, with the text that it was read from. -/
structure Range where
  source : Text
  alternatives : List (List Comparator)
deriving DecidableEq, Repr

namespace Range

def any : Range where
  source := ['*']
  alternatives := [[.any]]

def alternativeText (comparators : List Comparator) : Text :=
  joinWith [' '] (comparators.map Comparator.text)

def text (range : Range) : Text :=
  trim (joinWith ['|', '|'] (range.alternatives.map alternativeText))

def test (range : Range) (v : Version) : Bool :=
  range.alternatives.any (Comparator.testAll · v)

/-- Whether every comparator of one alternative intersects every one of the
other. -/
def alternativesIntersect (left right : List Comparator) : Bool :=
  left.all fun a => right.all fun b => a.intersects b

/-- Whether a satisfiable alternative of the one range intersects a satisfiable
alternative of the other. -/
def intersects (left right : Range) : Bool :=
  left.alternatives.any fun these =>
    Comparator.isSatisfiable these &&
      right.alternatives.any fun those =>
        Comparator.isSatisfiable those && alternativesIntersect these those

/-- Whether two ranges have the same canonical text. -/
def isSame (a b : Range) : Bool :=
  a.text == b.text

end Range

end SemanticVersions
