import SemanticVersions.Proofs.Range.Partial
import SemanticVersions.Proofs.Range.Spacing
import SemanticVersions.Proofs.Traversal
import SemanticVersions.Range.Basic
import SemanticVersions.Range.Normal

/-!
# Canonical alternatives are in normal form

The canonical text of an alternative is left alone by every step of the normal
form: no hyphen stands behind a blank, no sign in front of one, and each token
is a comparator with a full version, which is no shorthand.
-/

namespace SemanticVersions

/-! ### Full versions as partial versions -/

theorem Component.read?_decimal (n : Nat) : Component.read? (decimal n) = some (.number n) := by
  have hdigit : ∀ mark : Char, mark.isDigit = false → decimal n ≠ [mark] := by
    intro mark hmark heq
    have hmem : mark ∈ decimal n := by simp [heq]
    exact ne_of_class (isDigit_of_mem_decimal hmem) hmark rfl
  unfold Component.read?
  split
  · next heq => exact absurd heq (hdigit 'x' (by decide))
  · next heq => exact absurd heq (hdigit 'X' (by decide))
  · next heq => exact absurd heq (hdigit '*' (by decide))
  · simp [isPlainNumeral_decimal]

/-- The text of a version is a partial version that leaves nothing out. -/
theorem Partial.read?_fullText {v : Version} (hv : v.WellFormed) :
    Partial.read? v.fullText =
      some (.full v.major.toNat v.minor.toNat v.patch.toNat
        (v.prerelease.map Identifier.text)) := by
  obtain ⟨c, rest, htext, hdigit⟩ := Version.fullText_eq_cons v
  have hlead : v.fullText.dropWhile isLead = v.fullText := by
    rw [htext]
    exact List.dropWhile_cons_of_neg (by simp [isLead_of_isDigit hdigit])
  obtain ⟨hrelease, hprerelease, -⟩ := Version.ofText_fullText hv
  have hallowed : (Fields.ofText v.fullText).suffixAllowed = true := by
    have hform := (Version.ofText_reads_iff.mpr ⟨hv, rfl⟩).1
    simp only [Fields.isVersion, Bool.and_eq_true] at hform
    exact hform.2
  rw [Partial.read?, hlead, Partial.ofFields?, hrelease]
  simp [Component.read?_decimal, hallowed, hprerelease, Partial.ofComponents?]

/-- The text of a version is read as a full partial version. -/
theorem Partial.read?_text {v : Version} (hv : v.WellFormed) :
    Partial.read? v.text =
      some (.full v.major.toNat v.minor.toNat v.patch.toNat
        (v.prerelease.map Identifier.text)) := by
  have hread := read?_fullText hv.withoutBuild
  rwa [Version.fullText_of_build_eq_nil rfl, Version.text_withBuild] at hread

namespace Comparator

/-! ### Tokens -/

def isFirstChar (c : Char) : Bool :=
  c.isDigit || c == '<' || c == '>'

section Token

variable {c : Comparator} (hc : c.WellFormed) (hany : c ≠ any)

include hc hany

theorem text_eq_cons : ∃ d rest, c.text = d :: rest ∧ isFirstChar d = true := by
  cases c with
  | any => exact absurd rfl hany
  | bound operator version =>
    obtain ⟨d, rest, htext, _, hdigit⟩ := bound_text_eq operator version
    have hsign := hc.1
    cases operator with
    | equal => exact ⟨d, rest, by rw [htext]; rfl, by simp [isFirstChar, hdigit]⟩
    | less => exact ⟨'<', _, by rw [htext]; rfl, rfl⟩
    | lessEqual => exact ⟨'<', _, by rw [htext]; rfl, rfl⟩
    | greater => exact ⟨'>', _, by rw [htext]; rfl, rfl⟩
    | greaterEqual => exact ⟨'>', _, by rw [htext]; rfl, rfl⟩
    | notEqual => cases hsign
    | identical => cases hsign
    | different => cases hsign

/-- The last character belongs to the version. -/
theorem getLast?_text : ∀ d ∈ c.text.getLast?, Operator.isSignChar d = false := by
  cases c with
  | any => exact absurd rfl hany
  | bound operator version =>
    intro d hlast
    obtain ⟨first, rest, htext, _⟩ := Version.text_eq_cons version
    have hne : version.text ≠ [] := by simp [htext]
    rw [text, List.getLast?_append, List.getLast?_eq_some_getLast hne, Option.some_or] at hlast
    have hmem : d ∈ version.text := by
      rw [← Option.some.inj hlast]
      exact List.getLast_mem hne
    exact Operator.not_isSignChar_of_isVersionChar (Version.isVersionChar_of_mem_text hc.2 hmem)

/-- A canonical comparator names a full version, so it is no shorthand. -/
theorem readShorthand_text : Shorthand.read? c.text = none := by
  -- Behind its sign stands a version with all three numbers.
  have hcompared : Shorthand.readCompared? c.text = none := by
    cases c with
    | any => exact absurd rfl hany
    | bound operator version =>
      rw [Shorthand.readCompared?, spanSign_text hc.1, Operator.read_text,
        Partial.read?_text hc.2]
  obtain ⟨d, rest, htext, hfirst⟩ := text_eq_cons hc hany
  have hcaret : d ≠ '^' := ne_of_class hfirst (by decide)
  have htilde : d ≠ '~' := ne_of_class hfirst (by decide)
  rw [← hcompared, htext]
  unfold Shorthand.read?
  split <;> simp_all

/-- The text of a bound is no shorthand and stays as it is. -/
theorem expandToken_text : Normal.expandToken c.text = .ok c.text := by
  have hstar : '*' ∉ c.text :=
    not_mem_of_class (fun _ hd => isTextChar_of_mem_text hc hd) (by decide)
  rw [Normal.expandToken, readShorthand_text hc hany]
  exact congrArg Except.ok (Spacing.dropStars_eq_self hstar)

end Token

end Comparator

/-! ### Normal forms -/

namespace Normal

theorem ofAlternative_eq_ok {alternative normal : Text}
    (hnormal : ofAlternative alternative = .ok normal) :
    ∃ expanded tokens, expandHyphen alternative = .ok expanded ∧
      (splitBlanks (Spacing.close expanded)).mapM expandToken = .ok tokens ∧
        normal = joinWith [' '] tokens := by
  unfold ofAlternative at hnormal
  cases hexpand : expandHyphen alternative with
  | error cause =>
    rw [hexpand] at hnormal
    cases hnormal
  | ok expanded =>
    simp only [hexpand, bind, Except.bind] at hnormal
    cases htokens : (splitBlanks (Spacing.close expanded)).mapM expandToken with
    | error cause =>
      rw [htokens] at hnormal
      cases hnormal
    | ok tokens =>
      rw [htokens] at hnormal
      exact ⟨expanded, tokens, rfl, htokens, (Except.ok.inj hnormal).symm⟩

theorem mem_tokens {normal token : Text} (htoken : token ∈ tokens normal) :
    token = [] ∨ token ∈ splitBlanks normal := by
  obtain ⟨piece, hpiece, rfl⟩ := List.mem_map.mp htoken
  rw [Spacing.dropAtLeastZero]
  split
  · exact .inl rfl
  · exact .inr hpiece

end Normal

/-! ### Tokens with blanks between them -/

/-- The hyphen of a hyphen range has blanks on both sides. -/
theorem HyphenRange.hyphen_mem_of_read? {text : Text} {range : HyphenRange}
    (hread : read? text = some range) : ['-'] ∈ splitBlanks text := by
  obtain ⟨upperText, hafter, -⟩ := Option.bind_eq_some_iff.mp hread
  unfold afterHyphen? at hafter
  split at hafter
  · next c rest hstart =>
    rw [Option.ite_none_right_eq_some, Bool.and_eq_true, decide_eq_true_eq] at hafter
    obtain ⟨⟨hshorter, hc⟩, -⟩ := hafter
    have hbehind := takeWhile_append_trimStart (spanVersion text).2
    have hne : (spanVersion text).2.takeWhile isBlank ≠ [] := by
      intro hnil
      rw [hnil, List.nil_append] at hbehind
      rw [hbehind] at hshorter
      exact Nat.lt_irrefl _ hshorter
    obtain ⟨front, b, hfront⟩ := List.eq_nil_or_concat _ |>.resolve_left hne
    have hb : isBlank b = true := List.mem_takeWhile_imp (by rw [hfront]; simp)
    have htext : text = (spanVersion text).1 ++ front ++ b :: (['-'] ++ c :: rest) := by
      rw [hfront, hstart] at hbehind
      calc
        text = (spanVersion text).1 ++ (spanVersion text).2 := (spanVersion_append text).symm
        _ = (spanVersion text).1 ++ front ++ b :: (['-'] ++ c :: rest) := by simp [← hbehind]
    rw [htext]
    exact mem_splitBlanks_of_blanks ⟨by simp, not_isBlank_of_all (by decide)⟩ hb hc
  · cases hafter

theorem HyphenRange.read?_eq_none {text : Text} (htext : ['-'] ∉ splitBlanks text) :
    read? text = none := by
  cases hread : read? text with
  | none => rfl
  | some range => exact absurd (hyphen_mem_of_read? hread) htext

/-- Where no token is a hyphen, no hyphen has blanks on both sides. -/
theorem HyphenRange.read?_joinWith {tokens : List Text} (htokens : ∀ token ∈ tokens, IsToken token)
    (hhyphen : ['-'] ∉ tokens) : read? (joinWith [' '] tokens) = none := by
  cases tokens with
  | nil => rfl
  | cons first tokens =>
    apply read?_eq_none
    rwa [splitBlanks_joinWith (by simp) htokens]

/-- A hyphen range has blanks. -/
theorem HyphenRange.read?_of_no_blank {text : Text} (htext : ∀ c ∈ text, isBlank c = false) :
    read? text = none := by
  cases hread : read? text with
  | none => rfl
  | some range =>
    have hmem := hyphen_mem_of_read? hread
    rw [splitBlanks, piecesFrom_eq_singleton htext, List.mem_singleton] at hmem
    rw [← hmem] at hread
    cases hread

theorem Spacing.signsClosed_joinWith {tokens : List Text}
    (htokens : ∀ token ∈ tokens, IsToken token)
    (hlasts : ∀ token ∈ tokens, ∀ c ∈ token.getLast?, Operator.isSignChar c = false) :
    SignsClosed (joinWith [' '] tokens) := by
  induction tokens with
  | nil => trivial
  | cons first tokens ih =>
    have hfirst := signsClosed_of_no_blank (htokens first (by simp)).2
    cases tokens with
    | nil => rwa [joinWith_singleton]
    | cons second tokens =>
      have hrest := ih (fun token htoken => htokens token (by simp [htoken]))
        (fun token htoken => hlasts token (by simp [htoken]))
      have hblank : SignsClosed [' '] := trivial
      rw [joinWith_cons_cons, List.append_assoc]
      apply hfirst.append _ (hlasts first (by simp))
      exact hblank.append hrest (by simp [Operator.isSignChar])

/-! ### Alternatives -/

namespace Range

section Alternative

variable {comparators : List Comparator} (hne : comparators ≠ [])
  (hbounds : ∀ c ∈ comparators, c.WellFormed ∧ c ≠ .any)

include hbounds

theorem isToken_of_mem_texts : ∀ token ∈ comparators.map Comparator.text, IsToken token := by
  intro token htoken
  obtain ⟨c, hc, rfl⟩ := List.mem_map.mp htoken
  exact Comparator.isToken_text (hbounds c hc).1 (hbounds c hc).2

theorem mem_alternativeText {d : Char} (hd : d ∈ alternativeText comparators) :
    d = ' ' ∨ Comparator.isTextChar d = true := by
  cases mem_joinWith hd with
  | inl hblank => exact .inl (List.mem_singleton.mp hblank)
  | inr htoken =>
    obtain ⟨token, htoken, hmem⟩ := htoken
    obtain ⟨c, hc, rfl⟩ := List.mem_map.mp htoken
    exact .inr (Comparator.isTextChar_of_mem_text (hbounds c hc).1 hmem)

theorem not_mem_alternativeText {mark : Char} (hblank : mark ≠ ' ')
    (hmark : Comparator.isTextChar mark = false) : mark ∉ alternativeText comparators := by
  intro hmem
  cases mem_alternativeText hbounds hmem with
  | inl heq => exact hblank heq
  | inr htext => exact ne_of_class htext hmark rfl

theorem readHyphen_alternativeText : HyphenRange.read? (alternativeText comparators) = none := by
  apply HyphenRange.read?_joinWith (isToken_of_mem_texts hbounds)
  intro hmem
  obtain ⟨c, hc, hhyphen⟩ := List.mem_map.mp hmem
  obtain ⟨first, rest, htext, hfirst⟩ := Comparator.text_eq_cons (hbounds c hc).1 (hbounds c hc).2
  rw [htext] at hhyphen
  exact ne_of_class hfirst (by decide) (List.cons.inj hhyphen).1

/-- An alternative in canonical form has no gap to close. -/
theorem close_alternativeText :
    Spacing.close (alternativeText comparators) = alternativeText comparators := by
  apply Spacing.close_eq_self
  · apply Spacing.signsClosed_joinWith (isToken_of_mem_texts hbounds)
    intro token htoken
    obtain ⟨c, hc, rfl⟩ := List.mem_map.mp htoken
    exact Comparator.getLast?_text (hbounds c hc).1 (hbounds c hc).2
  · exact not_mem_alternativeText hbounds (by decide) (by decide)
  · exact not_mem_alternativeText hbounds (by decide) (by decide)

include hne

/-- The tokens of an alternative in canonical form are the texts of its comparators. -/
theorem splitBlanks_alternativeText :
    splitBlanks (alternativeText comparators) = comparators.map Comparator.text :=
  splitBlanks_joinWith (by simpa using hne) (isToken_of_mem_texts hbounds)

/-- The canonical text of an alternative with bounds is its own normal form. -/
theorem ofAlternative_alternativeText :
    Normal.ofAlternative (alternativeText comparators) = .ok (alternativeText comparators) := by
  have htokens : (comparators.map Comparator.text).mapM Normal.expandToken =
      .ok (comparators.map Comparator.text) :=
    mapM_map_eq_ok fun c hc => Comparator.expandToken_text (hbounds c hc).1 (hbounds c hc).2
  have hexpand : Normal.expandHyphen (alternativeText comparators) =
      .ok (alternativeText comparators) := by
    rw [Normal.expandHyphen, readHyphen_alternativeText hbounds]
  rw [Normal.ofAlternative, hexpand]
  change ((splitBlanks (Spacing.close (alternativeText comparators))).mapM
    Normal.expandToken >>= fun tokens => .ok (joinWith [' '] tokens)) = _
  rw [close_alternativeText hbounds, splitBlanks_alternativeText hne hbounds, htokens]
  rfl

end Alternative

/-- A text without blanks is a single token, and its normal form is that of the token. -/
theorem ofAlternative_of_no_blank {text : Text} (htext : ∀ c ∈ text, isBlank c = false) :
    Normal.ofAlternative text = Normal.expandToken text := by
  have hexpand : Normal.expandHyphen text = .ok text := by
    rw [Normal.expandHyphen, HyphenRange.read?_of_no_blank htext]
  have hpieces : splitBlanks (Spacing.close text) = [text] := by
    rw [Spacing.close_of_no_blank htext]
    exact piecesFrom_eq_singleton htext false
  rw [Normal.ofAlternative, hexpand]
  change ((splitBlanks (Spacing.close text)).mapM Normal.expandToken >>=
    fun tokens => .ok (joinWith [' '] tokens)) = _
  rw [hpieces, List.mapM_cons]
  cases htoken : Normal.expandToken text with
  | error cause => rfl
  | ok expanded => exact congrArg Except.ok (joinWith_singleton [' '] expanded)

/-- The canonical text of an alternative without condition is its own normal form. -/
theorem ofAlternative_nil : Normal.ofAlternative [] = .ok [] := by
  have hshorthand : Shorthand.read? [] = none := by decide
  rw [ofAlternative_of_no_blank (by simp), Normal.expandToken, hshorthand]
  exact congrArg Except.ok (Spacing.dropStars_eq_self (by simp))

end Range

end SemanticVersions
