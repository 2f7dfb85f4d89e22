import SemanticVersions.Range.Reader

/-!
# Selecting and sorting version texts

Version texts are chosen by a range and sorted by precedence, and are given
back as they were written.  Texts that are no versions are left out, and a text
that is no range chooses nothing.
-/

namespace SemanticVersions.Selection

def satisfies (version range : Text) : Bool :=
  match Version.read version, Range.read range with
  | .ok version, .ok range => range.test version
  | _, _ => false

def satisfiedBy (versions : List Text) (range : Text) : List Text :=
  match Range.read range with
  | .ok range => versions.filter fun text =>
      match Version.read text with
      | .ok version => range.test version
      | .error _ => false
  | .error _ => []

def intersects (a b : Text) : Bool :=
  match Range.read a, Range.read b with
  | .ok a, .ok b => a.intersects b
  | _, _ => false

/-- A version beside the text that it was read from. -/
abbrev Entry := Version × Text

def entries (versions : List Text) : List Entry :=
  versions.filterMap fun text =>
    match Version.read text with
    | .ok version => some (version, text)
    | .error _ => none

def matching (versions : List Text) (range : Text) : List Entry :=
  match Range.read range with
  | .ok range => (entries versions).filter fun entry => range.test entry.1
  | .error _ => []

/-- The last of the greatest entries. -/
def greatest? : List Entry → Option Entry
  | [] => none
  | entry :: entries =>
    match greatest? entries with
    | none => some entry
    | some best => if (compare entry.1 best.1).isGT then some entry else some best

/-- The first of the least entries. -/
def least? : List Entry → Option Entry
  | [] => none
  | entry :: entries =>
    match least? entries with
    | none => some entry
    | some best => if (compare best.1 entry.1).isLT then some best else some entry

/-- The text of the greatest version that satisfies a range; of equal ones the
last. -/
def maxSatisfying (versions : List Text) (range : Text) : Option Text :=
  (greatest? (matching versions range)).map (·.2)

/-- The text of the least version that satisfies a range; of equal ones the
first. -/
def minSatisfying (versions : List Text) (range : Text) : Option Text :=
  (least? (matching versions range)).map (·.2)

/-- The version texts in ascending order; equal ones keep their order. -/
def sort (versions : List Text) : List Text :=
  ((entries versions).mergeSort fun a b => (compare a.1 b.1).isLE).map (·.2)

/-- The version texts in descending order; equal ones keep their order. -/
def sortDescending (versions : List Text) : List Text :=
  ((entries versions).mergeSort fun a b => (compare b.1 a.1).isLE).map (·.2)

end SemanticVersions.Selection
