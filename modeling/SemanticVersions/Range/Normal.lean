import SemanticVersions.Error
import SemanticVersions.Range.Hyphen
import SemanticVersions.Range.Shorthand
import SemanticVersions.Range.Spacing

/-!
# The normal form of an alternative

An alternative is brought into a form where every token is a comparator.  A
hyphen range is written out as two bounds, operators are moved up to their
versions, and each token that is a shorthand is replaced by its bounds.
-/

namespace SemanticVersions.Normal

/-- Writes out an alternative that is a hyphen range.  Where an end cannot be
held the whole alternative is at fault. -/
def expandHyphen (alternative : Text) : Except Error Text :=
  match HyphenRange.read? alternative with
  | none => .ok alternative
  | some range =>
    match range.bounds? with
    | some bounds => .ok bounds
    | none => .error (.invalidComparator alternative)

/-- Writes out a token that is a shorthand, and drops the stars of any other. -/
def expandToken (token : Text) : Except Error Text :=
  match Shorthand.read? token with
  | none => .ok (Spacing.dropStars token)
  | some shorthand =>
    match shorthand.bounds? with
    | some bounds => .ok (Bound.textOfList bounds)
    | none => .error (.invalidComparator token)

/-- The normal form of an alternative with no blanks around it. -/
def ofAlternative (alternative : Text) : Except Error Text := do
  let expanded ← expandHyphen alternative
  let tokens ← (splitBlanks (Spacing.close expanded)).mapM expandToken
  return joinWith [' '] tokens

def tokens (normal : Text) : List Text :=
  (splitBlanks normal).map Spacing.dropAtLeastZero

end SemanticVersions.Normal
