import SemanticVersions.Range.Reader

/-!
# Records of reading

While a range is read, its reader records the normal form of each alternative
and what was simplified.  The records up to an error are kept.

Records show a text in double quotes.  A quote, a backslash, a line feed, a
carriage return and a tab are written with a backslash, all else as it is.
-/

namespace SemanticVersions

/-! ### Quoted texts -/

/-- A character as it stands inside a quoted text. -/
def quotedChar (c : Char) : Text :=
  match c with
  | '"' => ['\\', '"']
  | '\\' => ['\\', '\\']
  | '\n' => ['\\', 'n']
  | '\r' => ['\\', 'r']
  | '\t' => ['\\', 't']
  | _ => [c]

def quoted (text : Text) : Text :=
  '"' :: (text.flatMap quotedChar ++ ['"'])

example : quoted "a\"b".toList = "\"a\\\"b\"".toList := by decide

/-! ### Records -/

inductive Level
  | trace
  | debug
deriving DecidableEq, Repr

namespace Level

def text : Level → Text
  | trace => "TRACE".toList
  | debug => "DEBUG".toList

end Level

/-- What is recorded while a range is read. -/
inductive Record
  /-- The normal form of an alternative. -/
  | normalized (alternative normal : Text)
  /-- An alternative that nothing satisfies. -/
  | unsatisfiable (alternative : Text)
  /-- The number of alternatives that were dropped because nothing satisfies
  them. -/
  | dropped (count : Nat) (range : Text)
  /-- A range with an alternative without condition beside others. -/
  | unconstrained (range : Text)
deriving DecidableEq, Repr

namespace Record

def level : Record → Level
  | normalized _ _ => .trace
  | _ => .debug

def message : Record → Text
  | normalized alternative normal =>
    "Normalized ".toList ++ quoted alternative ++ " to ".toList ++ quoted normal
  | unsatisfiable alternative =>
    "Alternative ".toList ++ quoted alternative ++ " can never be satisfied".toList
  | dropped count range =>
    "Dropped ".toList ++ decimal count ++ " null set alternative(s) from ".toList ++
      quoted range
  | unconstrained range =>
    "Range ".toList ++ quoted range ++
      " has an unconstrained alternative, matching any version".toList

/-- The records of one alternative.  None is made if it has no normal form. -/
def ofAlternative (alternative : Text) : List Record :=
  match Normal.ofAlternative alternative with
  | .error _ => []
  | .ok normal =>
    match Range.readNormal normal with
    | .ok (comparator :: _) =>
      if comparator.isNullSet then
        [normalized alternative normal, unsatisfiable alternative]
      else
        [normalized alternative normal]
    | _ => [normalized alternative normal]

/-- The records of alternatives up to the first error. -/
def ofAlternatives : List Text → List Record
  | [] => []
  | alternative :: alternatives =>
    ofAlternative alternative ++
      match Range.readAlternative alternative with
      | .ok _ => ofAlternatives alternatives
      | .error _ => []

def ofSimplification (range : Text) (alternatives : List (List Comparator)) : List Record :=
  if alternatives.length > 1 then
    let kept := Range.satisfiableAlternatives alternatives
    let drops :=
      if kept.length < alternatives.length then
        [dropped (alternatives.length - kept.length) range]
      else
        []
    if kept.length > 1 && kept.contains [.any] then
      drops ++ [unconstrained range]
    else
      drops
  else
    []

def ofRange (range : Text) : List Record :=
  ofAlternatives (Range.alternativeTexts range) ++
    match (Range.alternativeTexts range).mapM Range.readAlternative with
    | .ok alternatives => ofSimplification range (alternatives.filter (!·.isEmpty))
    | .error _ => []

end Record

end SemanticVersions
