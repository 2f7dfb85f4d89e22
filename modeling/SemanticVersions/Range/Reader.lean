import SemanticVersions.Range.Basic
import SemanticVersions.Range.Normal

/-!
# Reading ranges

The alternatives of a range stand between bars.  Each is read from its normal
form and simplified, and then the alternatives are simplified together.  The
first error fails the whole range.
-/

namespace SemanticVersions

namespace Range

def hasText (comparators : List Comparator) (comparator : Comparator) : Bool :=
  comparators.any (·.text == comparator.text)

/-- Reads the comparators of an alternative behind those that are `known`,
without repetition.  A comparator that nothing satisfies stands for the whole
alternative, and what follows it is not read. -/
def readTokens (known : List Comparator) : List Text → Except Error (List Comparator)
  | [] => .ok known
  | token :: tokens => do
    let comparator ← Comparator.read token
    if comparator.isNullSet then
      return [comparator]
    else if hasText known comparator then
      readTokens known tokens
    else
      readTokens (known ++ [comparator]) tokens

/-- Drops the comparators without condition, unless there is no other. -/
def dropAny (comparators : List Comparator) : List Comparator :=
  if comparators.length > 1 then comparators.filter (!·.isAny) else comparators

def readNormal (normal : Text) : Except Error (List Comparator) := do
  return dropAny (← readTokens [] (Normal.tokens normal))

def readAlternative (alternative : Text) : Except Error (List Comparator) := do
  readNormal (← Normal.ofAlternative alternative)

/-- Whether an alternative begins with a comparator that nothing satisfies. -/
def isNullAlternative : List Comparator → Bool
  | [] => false
  | comparator :: _ => comparator.isNullSet

def satisfiableAlternatives (alternatives : List (List Comparator)) :
    List (List Comparator) :=
  alternatives.filter (!isNullAlternative ·)

/-- Simplifies alternatives.  Those that nothing satisfies are dropped, except
that the first one stays if there is no other; then one without condition
stands for all. -/
def simplify (alternatives : List (List Comparator)) : List (List Comparator) :=
  match alternatives with
  | first :: _ :: _ =>
    match satisfiableAlternatives alternatives with
    | [] => [first]
    | [only] => [only]
    | several => if several.contains [.any] then [[.any]] else several
  | alternatives => alternatives

/-- The texts of the alternatives of a range, without blanks around them. -/
def alternativeTexts (text : Text) : List Text :=
  (splitBars text).map trim

def read (text : Text) : Except Error Range := do
  let alternatives ← (alternativeTexts text).mapM readAlternative
  let alternatives := alternatives.filter (!·.isEmpty)
  if alternatives.isEmpty then
    throw (.invalidRange text)
  else
    return { source := text, alternatives := simplify alternatives }

end Range

end SemanticVersions
