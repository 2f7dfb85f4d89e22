import SemanticVersions.Range.Reader

/-!
# Versions and ranges in documents

In a structured document a version stands as its full text and a range as its
canonical text.  Any string is read back as the text that it is, and a value of
another kind is refused.  How numbers are read and spelled is up to the format
of the document; a floating number is spelled with a point or an exponent.
-/

namespace SemanticVersions.Document

/-- A value of a document; of sequences and mappings only the kind is looked at. -/
inductive Value
  | null
  | boolean (value : Bool)
  /-- A number, by the numeral that the reader of the document has for it. -/
  | number (numeral : Text)
  | string (content : Text)
  | sequence
  | mapping
deriving DecidableEq, Repr

inductive Wanted
  | version
  | range
deriving DecidableEq, Repr

/-- Why a value was refused. -/
inductive Refusal
  /-- The value is no string. -/
  | wrongKind (found : Value) (wanted : Wanted)
  /-- The string does not read. -/
  | unreadable (cause : Error)
deriving DecidableEq, Repr

/-- Whether a numeral denotes an integer of sixty-four bits, signed or unsigned.
The negative zero does not. -/
def isInteger (numeral : Text) : Bool :=
  match numeral with
  | '-' :: digits =>
    isNumeral digits && decide (0 < decimalValue digits) &&
      decide (decimalValue digits ≤ Nat.pow 2 63)
  | digits => isNumeral digits && decide (decimalValue digits ≤ maxWord)

namespace Value

/-- What a value is called in a refusal. -/
def description : Value → Text
  | null => "null".toList
  | boolean true => "boolean `true`".toList
  | boolean false => "boolean `false`".toList
  | number numeral =>
    if isInteger numeral then
      "integer `".toList ++ numeral ++ "`".toList
    else
      "floating point `".toList ++ numeral ++ "`".toList
  | string content => "string \"".toList ++ content ++ ['"']
  | sequence => "sequence".toList
  | mapping => "map".toList

end Value

namespace Wanted

def description : Wanted → Text
  | version => "a semantic version string".toList
  | range => "a semantic version range string".toList

end Wanted

namespace Refusal

def message : Refusal → Text
  | wrongKind found wanted =>
    "invalid type: ".toList ++ found.description ++ ", expected ".toList ++ wanted.description
  | unreadable cause => cause.message

end Refusal

def ofVersion (version : Version) : Value :=
  .string version.fullText

def ofRange (range : Range) : Value :=
  .string range.text

def readVersion : Value → Except Refusal Version
  | .string content => (Version.read content).mapError .unreadable
  | found => .error (.wrongKind found .version)

def readRange : Value → Except Refusal Range
  | .string content => (Range.read content).mapError .unreadable
  | found => .error (.wrongKind found .range)

end SemanticVersions.Document
