import SemanticVersions.Error
import SemanticVersions.Version.Basic

/-!
# Reading versions

A version text is cut into fields at its first `+`, its first `-` and its
points, and the fields are checked afterwards.  No field of a version holds
one of these marks except a hyphen behind the first, so the cuts fall where
the parts meet.
-/

namespace SemanticVersions

/-- The fields of a version text before any of them is checked. -/
structure Fields where
  release : List Text
  prerelease : Option (List Text)
  build : Option (List Text)
deriving DecidableEq, Repr

namespace Fields

def ofText (text : Text) : Fields :=
  let front := (cutAt '+' text).1
  { release := (cutAt '-' front).1.splitOn '.'
    prerelease := (cutAt '-' front).2.map (·.splitOn '.')
    build := (cutAt '+' text).2.map (·.splitOn '.') }

/-- Whether a text may stand as prerelease identifier: a plain numeral, or a
nonempty text of letters, digits and hyphens that is not all digits. -/
def isPrereleaseField (text : Text) : Bool :=
  isPlainNumeral text ||
    (!text.isEmpty && text.all isIdentifierChar && !text.all Char.isDigit)

def isBuildField (text : Text) : Bool :=
  !text.isEmpty && text.all isIdentifierChar

/-- Whether the prerelease and the build are absent or well written. -/
def suffixAllowed (fields : Fields) : Bool :=
  (fields.prerelease.getD []).all isPrereleaseField &&
    (fields.build.getD []).all isBuildField

def suffixAbsent (fields : Fields) : Bool :=
  fields.prerelease.isNone && fields.build.isNone

/-- Whether the fields are those of a version, whatever the size of its
numbers. -/
def isVersion (fields : Fields) : Bool :=
  fields.release.length == 3 && fields.release.all isPlainNumeral && fields.suffixAllowed

def version? (fields : Fields) : Option Version :=
  match fields.release with
  | [major, minor, patch] => do
    let major ← readWord? major
    let minor ← readWord? minor
    let patch ← readWord? patch
    let prerelease ← (fields.prerelease.getD []).mapM Identifier.read?
    return { major, minor, patch, prerelease, build := fields.build.getD [] }
  | _ => none

end Fields

namespace Version

/-- The fields of a version text, which may have one `v` in front. -/
def fields (text : Text) : Fields :=
  match text with
  | 'v' :: rest => Fields.ofText rest
  | text => Fields.ofText text

/-- Whether a text has the form of a version, whatever the size of its
numbers. -/
def hasForm (text : Text) : Bool :=
  (fields text).isVersion

def read? (text : Text) : Option Version :=
  if hasForm text then (fields text).version? else none

def read (text : Text) : Except Error Version :=
  match read? (trim text) with
  | some version => .ok version
  | none => .error (.invalidVersion text)

def canonical? (text : Text) : Option Text :=
  (read text).toOption.map Version.text

end Version

end SemanticVersions
