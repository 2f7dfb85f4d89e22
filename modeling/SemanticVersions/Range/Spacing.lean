import SemanticVersions.Operator
import SemanticVersions.Range.Operand

/-!
# Spacing of operators

Blanks between an operator and its version are dropped before a range is cut
into tokens.  A comparison sign loses its blanks only in front of something
that begins like a version, and the search goes on behind what was taken for
that version.  Stars are dropped at the end, together with the sign and the
blanks in front of them.
-/

namespace SemanticVersions.Spacing

/-- What stands in front of `rest` in a text that ends in it. -/
def before (text rest : Text) : Text :=
  text.take (text.length - rest.length)

/-- A version with a comparison sign in front of it, and blanks around the sign:
the text up to the sign, the version with its lead, and the text behind. -/
def operand? (text : Text) : Option (Text × Text × Text) := do
  let sign := (spanSign (trimStart text)).1
  let version := trimStart (spanSign (trimStart text)).2
  let rest ← Operand.afterVersion? version
  return (text.takeWhile isBlank ++ sign, before version rest, rest)

theorem length_lt_of_operand? {text head version rest : Text}
    (hoperand : operand? text = some (head, version, rest)) : rest.length < text.length := by
  obtain ⟨behind, hbehind, hresult⟩ := Option.bind_eq_some_iff.mp hoperand
  cases hresult
  have hsign := congrArg List.length (spanSign_append (trimStart text))
  have hstart := (trimStart_suffix text).length_le
  have hversion := (trimStart_suffix (spanSign (trimStart text)).2).length_le
  have hshorter := (Operand.afterVersion?_isBehind hbehind).2
  rw [List.length_append] at hsign
  omega

/-- Drops the blanks between a comparison sign and the version behind it. -/
def closeSigns (text : Text) : Text :=
  match text with
  | [] => []
  | c :: tail =>
    match _hoperand : operand? (c :: tail) with
    | some (head, version, rest) => head ++ version ++ closeSigns rest
    | none => c :: closeSigns tail
termination_by text.length
decreasing_by
  · exact length_lt_of_operand? _hoperand
  · exact Nat.lt_succ_self _

/-- Drops the blanks behind each mark; `inGap` tells that the last character kept
was the mark. -/
def closeGaps (mark : Char) (inGap : Bool) : Text → Text
  | [] => []
  | c :: rest =>
    if inGap && isBlank c then
      closeGaps mark true rest
    else
      c :: closeGaps mark (c == mark) rest

/-- Writes `~>` in front of a blank as `~`. -/
def shortenTildes : Text → Text
  | '~' :: '>' :: c :: rest =>
    if isBlank c then
      '~' :: shortenTildes (c :: rest)
    else
      '~' :: '>' :: shortenTildes (c :: rest)
  | c :: rest => c :: shortenTildes rest
  | [] => []

def closeTildes (text : Text) : Text :=
  closeGaps '~' false (shortenTildes text)

def closeCarets (text : Text) : Text :=
  closeGaps '^' false text

/-- Drops the blanks behind comparison signs, tildes and carets. -/
def close (text : Text) : Text :=
  closeCarets (closeTildes (closeSigns text))

def afterOne (first second : Char) : Text → Text
  | [] => []
  | c :: rest => if c == first || c == second then rest else c :: rest

/-- The text behind a star at its head, in front of which a sign and blanks may
stand. -/
def afterStar? (text : Text) : Option Text :=
  match trimStart (afterOne '=' '=' (afterOne '<' '>' text)) with
  | '*' :: rest => some rest
  | _ => none

theorem afterOne_length_le (first second : Char) (text : Text) :
    (afterOne first second text).length ≤ text.length := by
  unfold afterOne
  split
  · exact Nat.le_refl _
  · split
    · exact Nat.le_succ _
    · exact Nat.le_refl _

theorem length_lt_of_afterStar? {text rest : Text} (hafter : afterStar? text = some rest) :
    rest.length < text.length := by
  unfold afterStar? at hafter
  split at hafter
  · next behind hstart =>
    cases hafter
    have hsuffix := (trimStart_suffix (afterOne '=' '=' (afterOne '<' '>' text))).length_le
    have hequals := afterOne_length_le '=' '=' (afterOne '<' '>' text)
    have hangle := afterOne_length_le '<' '>' text
    rw [hstart, List.length_cons] at hsuffix
    omega
  · cases hafter

/-- Drops each star with the sign and the blanks in front of it. -/
def dropStars (text : Text) : Text :=
  match text with
  | [] => []
  | c :: tail =>
    match _hstar : afterStar? (c :: tail) with
    | some rest => dropStars rest
    | none => c :: dropStars tail
termination_by text.length
decreasing_by
  · exact length_lt_of_afterStar? _hstar
  · exact Nat.lt_succ_self _

/-- Whether a text is the comparison `>=0.0.0` with blanks around its sign. -/
def isAtLeastZero (text : Text) : Bool :=
  match trim text with
  | '>' :: '=' :: rest => trimStart rest == ['0', '.', '0', '.', '0']
  | _ => false

/-- Drops a text that is the comparison `>=0.0.0`, which every release meets. -/
def dropAtLeastZero (text : Text) : Text :=
  if isAtLeastZero text then [] else text

end SemanticVersions.Spacing
