import SemanticVersions.Text.Blank

/-!
# Character classes

A class is one character, the blanks, or a bracketed list of characters and
ranges.  A class has a written form, the source that patterns show.
-/

namespace SemanticVersions.Grammar

/-- A part of a bracketed class. -/
inductive ClassItem
  | one (c : Char)
  | range (low high : Char)
  | blank
deriving DecidableEq, Repr

inductive CharClass
  | one (c : Char)
  | blank
  | oneOf (items : List ClassItem)
deriving DecidableEq, Repr

namespace ClassItem

def holds : ClassItem → Char → Bool
  | one d, c => c == d
  | range low high, c => low ≤ c && c ≤ high
  | blank, c => isBlank c

def source : ClassItem → Text
  | one c => [c]
  | range low high => [low, '-', high]
  | blank => ['\\', 's']

end ClassItem

namespace CharClass

def holds : CharClass → Char → Bool
  | one d, c => c == d
  | blank, c => isBlank c
  | oneOf items, c => items.any (·.holds c)

/-- The characters that are written behind a backslash outside brackets. -/
def special : List Char :=
  ['.', '+', '*', '?', '^', '$', '|', '(', ')', '[', ']', '\\']

def source : CharClass → Text
  | one c => if c ∈ special then ['\\', c] else [c]
  | blank => ['\\', 's']
  | oneOf items => '[' :: (items.flatMap ClassItem.source ++ [']'])

def digit : CharClass := oneOf [.range '0' '9']

def positiveDigit : CharClass := oneOf [.range '1' '9']

def letter : CharClass := oneOf [.range 'a' 'z', .range 'A' 'Z', .one '-']

def word : CharClass := oneOf [.range 'a' 'z', .range 'A' 'Z', .range '0' '9', .one '-']

/-- The same characters as `word`, as they are written in builds. -/
def buildWord : CharClass := oneOf [.range '0' '9', .range 'A' 'Z', .range 'a' 'z', .one '-']

/-- What may stand in front of a version. -/
def lead : CharClass := oneOf [.one 'v', .one '=', .blank]

end CharClass

end SemanticVersions.Grammar
