import SemanticVersions.Identifier
import SemanticVersions.Text.Pieces

/-!
# Versions

A version is a release `major.minor.patch`, prerelease identifiers and build
texts.  The canonical text leaves the build out, and the full text keeps it.
-/

namespace SemanticVersions

structure Version where
  major : UInt64
  minor : UInt64
  patch : UInt64
  prerelease : List Identifier := []
  build : List Text := []
deriving DecidableEq, Repr

namespace Version

def isPrerelease (v : Version) : Bool :=
  !v.prerelease.isEmpty

def releaseText (v : Version) : Text :=
  decimal v.major.toNat ++ '.' :: decimal v.minor.toNat ++ '.' :: decimal v.patch.toNat

/-- The texts with points between them after a mark; nothing if there are no
texts. -/
def markedText (mark : Char) (texts : List Text) : Text :=
  if texts.isEmpty then [] else mark :: joinWith ['.'] texts

/-- The canonical text of a version, without its build. -/
def text (v : Version) : Text :=
  v.releaseText ++ markedText '-' (v.prerelease.map Identifier.text)

/-- The text of a version with its build. -/
def fullText (v : Version) : Text :=
  v.text ++ markedText '+' v.build

/-- Whether each identifier and build text could stand in a version text. -/
def WellFormed (v : Version) : Prop :=
  (∀ id ∈ v.prerelease, id.WellFormed) ∧
    ∀ text ∈ v.build, text ≠ [] ∧ text.all isIdentifierChar = true

end Version

end SemanticVersions
