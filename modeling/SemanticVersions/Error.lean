import SemanticVersions.Text.Blank

/-!
# Errors

Each error names its cause and carries the text at fault.
-/

namespace SemanticVersions

/-- Why a text was refused. -/
inductive Error
  /-- The text is no version, or one of its numbers is too large. -/
  | invalidVersion (input : Text)
  /-- The text is no comparator, or a bound derived from it is too large. -/
  | invalidComparator (input : Text)
  /-- The range has no alternative. -/
  | invalidRange (input : Text)
  /-- The text is no comparison operator. -/
  | invalidOperator (input : Text)
  /-- The text names no kind of release. -/
  | unknownRelease (input : Text)
deriving DecidableEq, Repr

namespace Error

def input : Error → Text
  | invalidVersion input => input
  | invalidComparator input => input
  | invalidRange input => input
  | invalidOperator input => input
  | unknownRelease input => input

/-- The wording of an error; the text at fault stands in it as it is. -/
def message : Error → Text
  | invalidVersion input => "Version \"".toList ++ input ++ "\" is not valid".toList
  | invalidComparator input => "Invalid comparator ".toList ++ input
  | invalidRange input => "Invalid SemVer range ".toList ++ input
  | invalidOperator input => "Invalid operator ".toList ++ input
  | unknownRelease input => "invalid increment argument: ".toList ++ input

end Error

end SemanticVersions
