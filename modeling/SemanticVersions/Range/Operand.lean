import SemanticVersions.Text.Decimal
import SemanticVersions.Range.Partial

/-!
# The extent of a written version

Before a range is cut into tokens, its operators are moved up to the versions
behind them.  For this the end of a version has to be found in the middle of a
text: three numerals with whatever suffix follows, or one to three components.
The functions here give the text behind what they take; each result is a later
part of the argument.
-/

namespace SemanticVersions.Operand

/-- What one identifier of a scanned suffix can go on with. -/
inductive Run
  /-- A single zero, behind which nothing follows. -/
  | zero
  /-- A run of digits. -/
  | digits
  /-- A run of letters, digits and hyphens. -/
  | word
deriving DecidableEq, Repr

def Run.holds : Run → Char → Bool
  | zero, _ => false
  | digits, c => c.isDigit
  | word, c => isIdentifierChar c

/-- The kinds of dotted suffixes. -/
inductive Suffix
  /-- Identifiers where a number is a plain numeral. -/
  | prerelease
  /-- Identifiers where a number is any numeral. -/
  | loosePrerelease
  /-- Texts of letters, digits and hyphens. -/
  | build
deriving DecidableEq, Repr

/-- The run that a character begins in a suffix.  A digit begins a number even
if letters follow, and the number then ends in front of them. -/
def Suffix.start? (suffix : Suffix) (c : Char) : Option Run :=
  match suffix with
  | prerelease =>
    if c == '0' then some .zero
    else if c.isDigit then some .digits
    else if isIdentifierChar c then some .word
    else none
  | loosePrerelease =>
    if c.isDigit then some .digits
    else if isIdentifierChar c then some .word
    else none
  | build => if isIdentifierChar c then some .word else none

/-- The text behind the dotted identifiers that a scan is in. -/
def afterRun (suffix : Suffix) : Run → Text → Text
  | _, [] => []
  | _, ['.'] => ['.']
  | _, '.' :: c :: rest =>
    match suffix.start? c with
    | some next => afterRun suffix next rest
    | none => '.' :: c :: rest
  | run, c :: rest => if run.holds c then afterRun suffix run rest else c :: rest

def afterDotted? (suffix : Suffix) : Text → Option Text
  | [] => none
  | c :: rest => (suffix.start? c).map (afterRun suffix · rest)

def afterBuild : Text → Text
  | '+' :: rest => (afterDotted? .build rest).getD ('+' :: rest)
  | text => text

def afterPrerelease : Text → Text
  | '-' :: rest => (afterDotted? .prerelease rest).getD ('-' :: rest)
  | text => text

/-- The text behind a loose prerelease at its head, whose hyphen may be left
out.  A hyphen in front of no identifier is an identifier itself. -/
def afterLoosePrerelease : Text → Text
  | '-' :: rest => (afterDotted? .loosePrerelease rest).getD (afterRun .loosePrerelease .word rest)
  | text => (afterDotted? .loosePrerelease text).getD text

def afterPoint? : Text → Option Text
  | '.' :: rest => some rest
  | _ => none

def afterNumeral? : Text → Option Text
  | [] => none
  | c :: rest => if c.isDigit then some (rest.dropWhile Char.isDigit) else none

def afterComponent? : Text → Option Text
  | [] => none
  | c :: rest =>
    if c == '0' || c == 'x' || c == 'X' || c == '*' then some rest
    else if c.isDigit then some (rest.dropWhile Char.isDigit)
    else none

def afterLoose? (text : Text) : Option Text := do
  let rest ← afterNumeral? text
  let rest ← afterPoint? rest >>= afterNumeral?
  let rest ← afterPoint? rest >>= afterNumeral?
  return afterBuild (afterLoosePrerelease rest)

def afterPartial? (text : Text) : Option Text := do
  let first ← afterComponent? text
  match afterPoint? first >>= afterComponent? with
  | none => return first
  | some second =>
    match afterPoint? second >>= afterComponent? with
    | none => return second
    | some third => return afterBuild (afterPrerelease third)

/-- The text behind a version at its head, which may have any run of `v`, `=`
and blanks in front. -/
def afterVersion? (text : Text) : Option Text :=
  let body := text.dropWhile Partial.isLead
  (afterLoose? body).or (afterPartial? body)

/-! ### Each result is a later part of the text -/

theorem afterRun_suffix (suffix : Suffix) (run : Run) (text : Text) :
    afterRun suffix run text <:+ text := by
  fun_induction afterRun suffix run text with
  | case1 => exact List.suffix_rfl
  | case2 => exact List.suffix_rfl
  | case3 run c rest next hnext ih =>
    exact ih.trans ((List.suffix_cons c rest).trans (List.suffix_cons '.' _))
  | case4 => exact List.suffix_rfl
  | case5 run c rest _ _ hholds ih => exact ih.trans (List.suffix_cons c rest)
  | case6 => exact List.suffix_rfl

theorem afterDotted?_suffix {suffix : Suffix} {text rest : Text}
    (hafter : afterDotted? suffix text = some rest) : rest <:+ text := by
  match text with
  | [] => simp [afterDotted?] at hafter
  | c :: tail =>
    simp only [afterDotted?, Option.map_eq_some_iff] at hafter
    obtain ⟨run, _, rfl⟩ := hafter
    exact (afterRun_suffix suffix run tail).trans (List.suffix_cons c tail)

theorem getD_suffix {after : Option Text} {text : Text}
    (hafter : ∀ rest, after = some rest → rest <:+ text) : after.getD text <:+ text := by
  cases after with
  | none => exact List.suffix_rfl
  | some rest => exact hafter rest rfl

theorem afterBuild_suffix (text : Text) : afterBuild text <:+ text := by
  unfold afterBuild
  split
  · exact getD_suffix fun _ hrest => (afterDotted?_suffix hrest).trans (List.suffix_cons _ _)
  · exact List.suffix_rfl

theorem afterPrerelease_suffix (text : Text) : afterPrerelease text <:+ text := by
  unfold afterPrerelease
  split
  · exact getD_suffix fun _ hrest => (afterDotted?_suffix hrest).trans (List.suffix_cons _ _)
  · exact List.suffix_rfl

theorem afterLoosePrerelease_suffix (text : Text) : afterLoosePrerelease text <:+ text := by
  unfold afterLoosePrerelease
  split
  · next rest =>
    cases hrest : afterDotted? .loosePrerelease rest with
    | none => exact (afterRun_suffix _ _ rest).trans (List.suffix_cons _ _)
    | some behind => exact (afterDotted?_suffix hrest).trans (List.suffix_cons _ _)
  · exact getD_suffix fun _ hrest => afterDotted?_suffix hrest

theorem afterPoint?_suffix {text rest : Text} (hafter : afterPoint? text = some rest) :
    rest <:+ text := by
  unfold afterPoint? at hafter
  split at hafter
  · cases hafter
    exact List.suffix_cons _ _
  · cases hafter

/-- A later part of the text that is shorter than the text. -/
def IsBehind (rest text : Text) : Prop :=
  rest <:+ text ∧ rest.length < text.length

theorem IsBehind.of_suffix {first second text : Text} (hsecond : second <:+ first)
    (hfirst : IsBehind first text) : IsBehind second text :=
  ⟨hsecond.trans hfirst.1, Nat.lt_of_le_of_lt hsecond.length_le hfirst.2⟩

theorem isBehind_cons {c : Char} {rest text : Text} (hrest : rest <:+ text) :
    IsBehind rest (c :: text) :=
  ⟨hrest.trans (List.suffix_cons c text), Nat.lt_succ_of_le hrest.length_le⟩

theorem afterNumeral?_isBehind {text rest : Text}
    (hafter : afterNumeral? text = some rest) : IsBehind rest text := by
  match text with
  | [] => cases hafter
  | c :: tail =>
    simp only [afterNumeral?, Option.ite_none_right_eq_some, Option.some.injEq] at hafter
    obtain ⟨_, rfl⟩ := hafter
    exact isBehind_cons (List.dropWhile_suffix _)

theorem afterComponent?_isBehind {text rest : Text}
    (hafter : afterComponent? text = some rest) : IsBehind rest text := by
  match text with
  | [] => cases hafter
  | c :: tail =>
    simp only [afterComponent?] at hafter
    split at hafter
    · cases hafter
      exact isBehind_cons List.suffix_rfl
    · simp only [Option.ite_none_right_eq_some, Option.some.injEq] at hafter
      obtain ⟨_, rfl⟩ := hafter
      exact isBehind_cons (List.dropWhile_suffix _)

theorem pointed_suffix {after? : Text → Option Text}
    (hafter? : ∀ text rest, after? text = some rest → IsBehind rest text) {text rest : Text}
    (hafter : (afterPoint? text >>= after?) = some rest) : rest <:+ text := by
  obtain ⟨behind, hpoint, hbehind⟩ := Option.bind_eq_some_iff.mp hafter
  exact (hafter? behind rest hbehind).1.trans (afterPoint?_suffix hpoint)

theorem afterLoose?_isBehind {text rest : Text} (hafter : afterLoose? text = some rest) :
    IsBehind rest text := by
  obtain ⟨first, hfirst, hafter⟩ := Option.bind_eq_some_iff.mp hafter
  obtain ⟨second, hsecond, hafter⟩ := Option.bind_eq_some_iff.mp hafter
  obtain ⟨third, hthird, hafter⟩ := Option.bind_eq_some_iff.mp hafter
  cases hafter
  have hnumeral : ∀ text rest, afterNumeral? text = some rest → IsBehind rest text :=
    fun _ _ => afterNumeral?_isBehind
  exact (afterNumeral?_isBehind hfirst).of_suffix <|
    (afterBuild_suffix _).trans <| (afterLoosePrerelease_suffix _).trans <|
      (pointed_suffix hnumeral hthird).trans (pointed_suffix hnumeral hsecond)

theorem afterPartial?_isBehind {text rest : Text} (hafter : afterPartial? text = some rest) :
    IsBehind rest text := by
  obtain ⟨first, hfirst, hafter⟩ := Option.bind_eq_some_iff.mp hafter
  have hcomponent : ∀ text rest, afterComponent? text = some rest → IsBehind rest text :=
    fun _ _ => afterComponent?_isBehind
  refine (afterComponent?_isBehind hfirst).of_suffix ?_
  split at hafter
  · cases hafter
    exact List.suffix_rfl
  · next second hsecond =>
    split at hafter
    · cases hafter
      exact pointed_suffix hcomponent hsecond
    · next third hthird =>
      cases hafter
      exact (afterBuild_suffix _).trans <| (afterPrerelease_suffix _).trans <|
        (pointed_suffix hcomponent hthird).trans (pointed_suffix hcomponent hsecond)

/-- A version takes at least one character. -/
theorem afterVersion?_isBehind {text rest : Text} (hafter : afterVersion? text = some rest) :
    IsBehind rest text := by
  have hbody : text.dropWhile Partial.isLead <:+ text := List.dropWhile_suffix _
  have hbehind : IsBehind rest (text.dropWhile Partial.isLead) := by
    rcases Option.or_eq_some_iff.mp hafter with hloose | ⟨_, hpartial⟩
    · exact afterLoose?_isBehind hloose
    · exact afterPartial?_isBehind hpartial
  exact ⟨hbehind.1.trans hbody, Nat.lt_of_lt_of_le hbehind.2 hbody.length_le⟩

end SemanticVersions.Operand
