import SemanticVersions.Text.Blank

/-!
# Pieces of a text

Texts are cut at runs of blanks, at the bars `||` and at single marks.  A cut
keeps empty pieces, so a text has one piece more than it has separators and no
character outside the separators is lost.
-/

namespace SemanticVersions

def extendFirst (c : Char) : List Text → List Text
  | [] => [[c]]
  | piece :: pieces => (c :: piece) :: pieces

/-- The pieces of a text between runs of blanks; `inRun` tells that the scan
stands inside a run whose cut is already made. -/
def piecesFrom (inRun : Bool) : Text → List Text
  | [] => [[]]
  | c :: rest =>
    if isBlank c then
      if inRun then piecesFrom true rest else [] :: piecesFrom true rest
    else
      extendFirst c (piecesFrom false rest)

/-- Cuts a text at each longest run of blanks. -/
def splitBlanks (text : Text) : List Text :=
  piecesFrom false text

/-- Cuts a text at each `||`, from the left. -/
def splitBars : Text → List Text
  | [] => [[]]
  | '|' :: '|' :: rest => [] :: splitBars rest
  | c :: rest => extendFirst c (splitBars rest)

/-- Drops the blanks of pieces that stand after a separator, except those at
the end of the last piece. -/
def closeSeams : List Text → List Text
  | [] => []
  | [last] => [trimStart last]
  | piece :: pieces => trim piece :: closeSeams pieces

/-- Cuts a text at each `||` together with the blanks on both sides of it. -/
def splitAlternatives (text : Text) : List Text :=
  match splitBars text with
  | first :: next :: pieces => trimEnd first :: closeSeams (next :: pieces)
  | pieces => pieces

/-- Splits a text at the first occurrence of a mark, which is dropped. -/
def cutAt (mark : Char) : Text → Text × Option Text
  | [] => ([], none)
  | c :: rest =>
    if c = mark then
      ([], some rest)
    else
      (c :: (cutAt mark rest).1, (cutAt mark rest).2)

def joinWith (separator : Text) (pieces : List Text) : Text :=
  List.intercalate separator pieces

@[simp] theorem extendFirst_ne_nil (c : Char) (pieces : List Text) :
    extendFirst c pieces ≠ [] := by
  cases pieces <;> simp [extendFirst]

theorem piecesFrom_ne_nil (inRun : Bool) (text : Text) : piecesFrom inRun text ≠ [] := by
  induction text generalizing inRun with
  | nil => simp [piecesFrom]
  | cons c rest ih =>
    simp only [piecesFrom]
    split
    · split
      · exact ih true
      · simp
    · simp

/-- A text has at least one piece. -/
theorem splitBlanks_ne_nil (text : Text) : splitBlanks text ≠ [] :=
  piecesFrom_ne_nil false text

/-- A text without blanks is its only piece. -/
theorem piecesFrom_eq_singleton {text : Text} (htext : ∀ c ∈ text, isBlank c = false)
    (inRun : Bool) : piecesFrom inRun text = [text] := by
  induction text generalizing inRun with
  | nil => rfl
  | cons c rest ih =>
    have hc := htext c (by simp)
    have hrest := ih (fun d hd => htext d (by simp [hd])) false
    simp [piecesFrom, hc, hrest, extendFirst]

/-- A text without the mark is all before it. -/
theorem cutAt_eq_none {mark : Char} {text : Text} (htext : mark ∉ text) :
    cutAt mark text = (text, none) := by
  induction text with
  | nil => rfl
  | cons c rest ih =>
    obtain ⟨hc, hrest⟩ := not_or.mp (mt List.mem_cons.mpr htext)
    simp [cutAt, Ne.symm hc, ih hrest]

/-- A cut at a mark undoes its insertion. -/
theorem cutAt_append {mark : Char} {before : Text} (hbefore : mark ∉ before)
    (after : Text) : cutAt mark (before ++ mark :: after) = (before, some after) := by
  induction before with
  | nil => simp [cutAt]
  | cons c rest ih =>
    obtain ⟨hc, hrest⟩ := not_or.mp (mt List.mem_cons.mpr hbefore)
    simp [cutAt, Ne.symm hc, ih hrest]

end SemanticVersions
