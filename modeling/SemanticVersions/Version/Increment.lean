import SemanticVersions.Error
import SemanticVersions.Version.Basic

/-!
# Increments

Each kind of release has its next version.  A prerelease already stands before
its own release, so the plain kinds only drop the prerelease where that leads
to a release of the wanted kind.  Numbers stay at the largest word once they
have reached it, and the build is kept.
-/

namespace SemanticVersions

inductive ReleaseKind
  | major
  | minor
  | patch
  | premajor
  | preminor
  | prepatch
  | prerelease
  | pre
deriving DecidableEq, Repr

namespace ReleaseKind

def text : ReleaseKind → Text
  | major => "major".toList
  | minor => "minor".toList
  | patch => "patch".toList
  | premajor => "premajor".toList
  | preminor => "preminor".toList
  | prepatch => "prepatch".toList
  | prerelease => "prerelease".toList
  | pre => "pre".toList

def all : List ReleaseKind :=
  [major, minor, patch, premajor, preminor, prepatch, prerelease, pre]

def read (name : Text) : Except Error ReleaseKind :=
  match all.find? (·.text == name) with
  | some kind => .ok kind
  | none => .error (.unknownRelease name)

/-- A kind is read back from its name. -/
theorem read_text (kind : ReleaseKind) : read kind.text = .ok kind := by
  cases kind <;> rfl

end ReleaseKind

namespace Identifier

/-- The identifiers with their last number raised by one, if they have a
number. -/
def raiseLast? : List Identifier → Option (List Identifier)
  | [] => none
  | id :: ids =>
    match raiseLast? ids, id with
    | some raised, _ => some (id :: raised)
    | none, numeric value => some (numeric (nextWord value) :: ids)
    | none, textual _ => none

/-- The identifiers with their last number raised by one, or with a zero
behind them if they have no number. -/
def raise (ids : List Identifier) : List Identifier :=
  (raiseLast? ids).getD (ids ++ [numeric 0])

/-- Whether identifiers are on a named line: the name, and then at once a
number or nothing. -/
def onLine (name : Text) : List Identifier → Bool
  | [textual first] => first == name
  | textual first :: second :: _ => first == name && second.isNumeric
  | _ => false

/-- The identifiers that follow, on the named line if there is a name. -/
def next (ids : List Identifier) : Option Text → List Identifier
  | none => raise ids
  | some name => if onLine name (raise ids) then raise ids else [ofText name, numeric 0]

end Identifier

namespace Version

def withRelease (v : Version) (major minor patch : UInt64) : Version :=
  { major, minor, patch, prerelease := [], build := v.build }

/-- The next major release; a prerelease of a major release steps to that. -/
def nextMajor (v : Version) : Version :=
  if v.isPrerelease && v.minor == 0 && v.patch == 0 then
    v.withRelease v.major 0 0
  else
    v.withRelease (nextWord v.major) 0 0

/-- The next minor release; a prerelease of a minor release steps to that. -/
def nextMinor (v : Version) : Version :=
  if v.isPrerelease && v.patch == 0 then
    v.withRelease v.major v.minor 0
  else
    v.withRelease v.major (nextWord v.minor) 0

/-- The next release; a prerelease steps to its own release. -/
def nextPatch (v : Version) : Version :=
  if v.isPrerelease then
    v.withRelease v.major v.minor v.patch
  else
    v.withRelease v.major v.minor (nextWord v.patch)

/-- The version with its prerelease stepped, on the named line if there is a
name. -/
def nextPre (v : Version) (name : Option Text) : Version :=
  { v with prerelease := Identifier.next v.prerelease name }

/-- The next version of a kind; `name` is the line of its prerelease. -/
def increment (v : Version) (kind : ReleaseKind) (name : Option Text) : Version :=
  match kind with
  | .major => v.nextMajor
  | .minor => v.nextMinor
  | .patch => v.nextPatch
  | .premajor => (v.withRelease (nextWord v.major) 0 0).nextPre name
  | .preminor => (v.withRelease v.major (nextWord v.minor) 0).nextPre name
  | .prepatch => (v.withRelease v.major v.minor (nextWord v.patch)).nextPre name
  | .prerelease => if v.isPrerelease then v.nextPre name else v.nextPatch.nextPre name
  | .pre => v.nextPre name

end Version

end SemanticVersions
