import SemanticVersions.Version.Basic

/-!
# Precedence of versions

Releases compare by their three numbers.  Of two versions with one release the
one without prerelease comes last, and two prereleases compare by their
identifiers.  Builds never count; they have an order of their own.

Build texts that denote an integer come first, by value; the others follow by
code points.  Different texts of one value, such as `5` and `05`, are told
apart by their code points, so only equal texts compare equal.

A hash takes up a value item by item.  Of a version these are its three numbers
and its prerelease identifiers behind their count, and each identifier stands
behind the index of its kind.  The build is left out, as it is in the
precedence of versions.
-/

namespace SemanticVersions

/-! ### Builds -/

def compareBuildTexts (a b : Text) : Ordering :=
  if a = b then
    .eq
  else
    match readInteger? a, readInteger? b with
    | some x, some y => (compare x y).then (compare a b)
    | some _, none => .lt
    | none, some _ => .gt
    | none, none => compare a b

/-- Compares two builds by their first texts that differ; a build comes before
its extensions. -/
def compareBuilds : List Text → List Text → Ordering
  | [], [] => .eq
  | [], _ :: _ => .lt
  | _ :: _, [] => .gt
  | a :: restA, b :: restB =>
    if a = b then compareBuilds restA restB else compareBuildTexts a b

/-! ### Versions -/

namespace Version

def compareRelease (a b : Version) : Ordering :=
  (compare a.major b.major).then
    ((compare a.minor b.minor).then (compare a.patch b.patch))

/-- Compares two lists of prerelease identifiers; the empty list, which marks
a release, is the greatest. -/
def comparePrerelease : List Identifier → List Identifier → Ordering
  | [], [] => .eq
  | _ :: _, [] => .lt
  | [], _ :: _ => .gt
  | a :: restA, b :: restB => compare (a :: restA) (b :: restB)

protected def compare (a b : Version) : Ordering :=
  (compareRelease a b).then (comparePrerelease a.prerelease b.prerelease)

instance : Ord Version where
  compare := Version.compare

def compareBuild (a b : Version) : Ordering :=
  compareBuilds a.build b.build

def isSame (a b : Version) : Bool :=
  compare a b == .eq

def sameRelease (a b : Version) : Bool :=
  compareRelease a b == .eq

end Version

/-! ### Hashing -/

inductive HashItem
  | word (value : UInt64)
  | length (count : Nat)
  | kind (index : Nat)
  | text (text : Text)
deriving DecidableEq, Repr

def Identifier.hashItems : Identifier → List HashItem
  | numeric value => [.kind 0, .word value]
  | textual text => [.kind 1, .text text]

def Version.hashItems (v : Version) : List HashItem :=
  .word v.major :: .word v.minor :: .word v.patch :: .length v.prerelease.length ::
    v.prerelease.flatMap Identifier.hashItems

end SemanticVersions
