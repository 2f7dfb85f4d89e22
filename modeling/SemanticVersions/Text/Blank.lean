/-!
# Texts and blanks

A text is a list of code points.  A blank is a code point with the Unicode
property `White_Space`; blanks separate the tokens of a range and are ignored
around a version.
-/

namespace SemanticVersions

/-- A text, one code point after the other. -/
abbrev Text := List Char

/-- The code points with property `White_Space`, as ranges with both ends
included. -/
def blankRanges : List (Nat × Nat) :=
  [(0x09, 0x0D), (0x20, 0x20), (0x85, 0x85), (0xA0, 0xA0), (0x1680, 0x1680),
    (0x2000, 0x200A), (0x2028, 0x2029), (0x202F, 0x202F), (0x205F, 0x205F),
    (0x3000, 0x3000)]

def isBlank (c : Char) : Bool :=
  blankRanges.any fun (low, high) => low ≤ c.toNat && c.toNat ≤ high

/-- There are twenty-five blanks in all. -/
example : (blankRanges.map fun (low, high) => high + 1 - low).sum = 25 := by decide

def trimStart (text : Text) : Text :=
  text.dropWhile isBlank

/-- The text up to its last character that is not a blank. -/
def trimEnd (text : Text) : Text :=
  (trimStart text.reverse).reverse

def trim (text : Text) : Text :=
  trimEnd (trimStart text)

@[simp] theorem trimStart_nil : trimStart [] = [] := rfl

theorem trimStart_cons_of_blank {c : Char} (hblank : isBlank c = true) (rest : Text) :
    trimStart (c :: rest) = trimStart rest := by
  simp [trimStart, hblank]

theorem trimStart_cons_of_not_blank {c : Char} (hblank : isBlank c = false) (rest : Text) :
    trimStart (c :: rest) = c :: rest := by
  simp [trimStart, hblank]

/-- Dropping the blanks at the head leaves a later part of the text. -/
theorem trimStart_suffix (text : Text) : trimStart text <:+ text :=
  List.dropWhile_suffix isBlank

end SemanticVersions
