import SemanticVersions.Grammar.Matching

/-!
# The table of patterns

The grammar of versions and ranges, as patterns under their table names.  Each
pattern is put together from those in front of it.
-/

namespace SemanticVersions.Grammar

open Pattern

structure Token where
  name : Text
  pattern : Pattern
deriving DecidableEq, Repr

def numeric : Pattern :=
  mark '0' <|> one .positiveDigit ++ many .digit

def numericLoose : Pattern :=
  several .digit

/-- Digits, a letter or hyphen, and then letters, digits and hyphens. -/
def nonNumeric : Pattern :=
  many .digit ++ one .letter ++ many .word

/-- Three captured parts with points between them. -/
def triple (part : Pattern) : Pattern :=
  capture part ++ mark '.' ++ capture part ++ mark '.' ++ capture part

/-- A part and any number of further ones behind points. -/
def dotted (part : Pattern) : Pattern :=
  part ++ repeated (group (mark '.' ++ part))

def mainVersion : Pattern := triple numeric

def mainVersionLoose : Pattern := triple numericLoose

def prereleaseIdentifier : Pattern := group (numeric <|> nonNumeric)

def prereleaseIdentifierLoose : Pattern := group (numericLoose <|> nonNumeric)

def prerelease : Pattern :=
  group (mark '-' ++ capture (dotted prereleaseIdentifier))

/-- The identifiers of a prerelease with or without a hyphen. -/
def prereleaseLoose : Pattern :=
  group (optional (mark '-') ++ capture (dotted prereleaseIdentifierLoose))

def buildIdentifier : Pattern := several .buildWord

def build : Pattern :=
  group (mark '+' ++ capture (dotted buildIdentifier))

def fullPlain : Pattern :=
  optional (mark 'v') ++ mainVersion ++ optional prerelease ++ optional build

/-- A pattern of whole texts. -/
def whole (inner : Pattern) : Pattern :=
  textStart ++ inner ++ textEnd

def full : Pattern := whole fullPlain

/-- A version with leading zeros, or without the hyphen of its prerelease. -/
def loosePlain : Pattern :=
  many .lead ++ mainVersionLoose ++ optional prereleaseLoose ++ optional build

def sign : Pattern :=
  capture (optional (group (mark '<' <|> mark '>')) ++ optional (mark '='))

def wildIdentifier : Pattern :=
  numeric <|> mark 'x' <|> mark 'X' <|> mark '*'

def wildPlain : Pattern :=
  many .lead ++ capture wildIdentifier ++
    optional (group (mark '.' ++ capture wildIdentifier ++
      optional (group (mark '.' ++ capture wildIdentifier ++
        optional (group prerelease) ++ optional build))))

def wildRange : Pattern :=
  whole (sign ++ many .blank ++ wildPlain)

def loneTilde : Pattern := group (mark '~' ++ optional (mark '>'))

def tildeTrim : Pattern :=
  capture (many .blank) ++ loneTilde ++ several .blank

def tilde : Pattern := whole (loneTilde ++ wildPlain)

def loneCaret : Pattern := group (mark '^')

def caretTrim : Pattern :=
  capture (many .blank) ++ loneCaret ++ several .blank

def caret : Pattern := whole (loneCaret ++ wildPlain)

def comparator : Pattern :=
  whole (sign ++ many .blank ++ capture fullPlain) <|> textStart ++ textEnd

def comparatorTrim : Pattern :=
  capture (many .blank) ++ sign ++ many .blank ++ capture (loosePlain <|> wildPlain)

def hyphenRange : Pattern :=
  whole (many .blank ++ capture wildPlain ++ several .blank ++ mark '-' ++
    several .blank ++ capture wildPlain ++ many .blank)

def star : Pattern :=
  optional (capture (mark '<' <|> mark '>')) ++ optional (mark '=') ++ many .blank ++
    mark '*'

def atLeastZero : Pattern :=
  whole (many .blank ++ mark '>' ++ mark '=' ++ many .blank ++ mark '0' ++ mark '.' ++
    mark '0' ++ mark '.' ++ mark '0' ++ many .blank)

def table : List Token :=
  [⟨"NUMERICIDENTIFIER".toList, numeric⟩,
    ⟨"NUMERICIDENTIFIERLOOSE".toList, numericLoose⟩,
    ⟨"NONNUMERICIDENTIFIER".toList, nonNumeric⟩,
    ⟨"MAINVERSION".toList, mainVersion⟩,
    ⟨"MAINVERSIONLOOSE".toList, mainVersionLoose⟩,
    ⟨"PRERELEASEIDENTIFIER".toList, prereleaseIdentifier⟩,
    ⟨"PRERELEASEIDENTIFIERLOOSE".toList, prereleaseIdentifierLoose⟩,
    ⟨"PRERELEASE".toList, prerelease⟩,
    ⟨"PRERELEASELOOSE".toList, prereleaseLoose⟩,
    ⟨"BUILDIDENTIFIER".toList, buildIdentifier⟩,
    ⟨"BUILD".toList, build⟩,
    ⟨"FULLPLAIN".toList, fullPlain⟩,
    ⟨"FULL".toList, full⟩,
    ⟨"LOOSEPLAIN".toList, loosePlain⟩,
    ⟨"GTLT".toList, sign⟩,
    ⟨"XRANGEIDENTIFIER".toList, wildIdentifier⟩,
    ⟨"XRANGEPLAIN".toList, wildPlain⟩,
    ⟨"XRANGE".toList, wildRange⟩,
    ⟨"LONETILDE".toList, loneTilde⟩,
    ⟨"TILDETRIM".toList, tildeTrim⟩,
    ⟨"TILDE".toList, tilde⟩,
    ⟨"LONECARET".toList, loneCaret⟩,
    ⟨"CARETTRIM".toList, caretTrim⟩,
    ⟨"CARET".toList, caret⟩,
    ⟨"COMPARATOR".toList, comparator⟩,
    ⟨"COMPARATORTRIM".toList, comparatorTrim⟩,
    ⟨"HYPHENRANGE".toList, hyphenRange⟩,
    ⟨"STAR".toList, star⟩,
    ⟨"GTE0".toList, atLeastZero⟩]

def lookup? (name : Text) : Option Pattern :=
  (table.find? (·.name == name)).map (·.pattern)

end SemanticVersions.Grammar
