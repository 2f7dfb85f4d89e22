import SemanticVersions.Range.Bound
import SemanticVersions.Range.Partial

/-!
# Hyphen ranges

A hyphen with blanks on both sides stands between the two ends of a closed
interval of versions.  An end that is partial takes in all versions that begin
with its numbers.
-/

namespace SemanticVersions

/-- The two ends of a hyphen range, as they are written and as they are read. -/
structure HyphenRange where
  lowerText : Text
  lower : Partial
  upperText : Text
  upper : Partial
deriving DecidableEq, Repr

namespace HyphenRange

/-- Splits a text behind the version at its head: a run of `v`, `=` and blanks,
and all up to the next blank. -/
def spanVersion (text : Text) : Text × Text :=
  let body := text.dropWhile Partial.isLead
  (text.takeWhile Partial.isLead ++ body.takeWhile (!isBlank ·),
    body.dropWhile (!isBlank ·))

def afterHyphen? (text : Text) : Option Text :=
  match trimStart text with
  | '-' :: c :: rest =>
    if (trimStart text).length < text.length && isBlank c then some (trimStart rest) else none
  | _ => none

def read? (text : Text) : Option HyphenRange := do
  let lowerText := (spanVersion text).1
  let upperText ← afterHyphen? (spanVersion text).2
  let lower ← Partial.read? lowerText
  let upper ← Partial.read? upperText
  return { lowerText, lower, upperText, upper }

/-- The lower bound as it is written out; a full version is kept as written. -/
def lowerBound (range : HyphenRange) : Text :=
  match range.lower with
  | .any => []
  | .major M => (Bound.atLeast M 0 0 []).text
  | .minor M m => (Bound.atLeast M m 0 []).text
  | .full _ _ _ _ => Operator.greaterEqual.text ++ range.lowerText

/-- The upper bound as it is written out, if its numbers can be held; a full
release is kept as written. -/
def upperBound? (range : HyphenRange) : Option Text :=
  match range.upper with
  | .any => some []
  | .major M => do
    return (Bound.below (← Bound.next? M) 0 0).text
  | .minor M m => do
    return (Bound.below M (← Bound.next? m) 0).text
  | .full _ _ _ [] => some (Operator.lessEqual.text ++ range.upperText)
  | .full M m p prerelease => some (Bound.atMost M m p prerelease).text

def bounds? (range : HyphenRange) : Option Text := do
  return trim (range.lowerBound ++ ' ' :: (← range.upperBound?))

end HyphenRange

end SemanticVersions
