import SemanticVersions.Proofs.Range.Hyphens
import SemanticVersions.Proofs.Range.Normal
import SemanticVersions.Proofs.Range.Partial
import SemanticVersions.Proofs.Range.Shape

/-!
# Bounds that are written out

The bounds of a shorthand or a hyphen range have the prerelease that is written in it, or
else none, or they are bounds `<X-0`.  So where no prerelease is written, the normal form
of an alternative has no hyphens but those of such bounds.
-/

namespace SemanticVersions

/-! ### Bounds -/

namespace Bound

/-- Whether a bound names no prerelease, or is a bound `<X-0`. -/
def Unasking (bound : Bound) : Prop :=
  bound.prerelease = [] ∨ bound.operator = .less ∧ bound.prerelease = [['0']]

theorem unasking_below (major minor patch : Nat) : (below major minor patch).Unasking :=
  .inr ⟨rfl, rfl⟩

def releaseText (bound : Bound) : Text :=
  joinWith ['.'] [decimal bound.major, decimal bound.minor, decimal bound.patch]

theorem text_eq (bound : Bound) :
    bound.text =
      bound.operator.text ++ bound.releaseText ++ Version.markedText '-' bound.prerelease := by
  simp [text, releaseText]

theorem mem_releaseText {bound : Bound} {c : Char} (hc : c ∈ bound.releaseText) :
    c.isDigit = true ∨ c = '.' := by
  rcases mem_joinWith hc with hpoint | ⟨numeral, hnumeral, hc⟩
  · exact .inr (List.mem_singleton.mp hpoint)
  · left
    simp only [List.mem_cons, List.not_mem_nil, or_false] at hnumeral
    rcases hnumeral with rfl | rfl | rfl <;> exact isDigit_of_mem_decimal hc

theorem hyphen_not_mem (bound : Bound) : '-' ∉ bound.operator.text ++ bound.releaseText := by
  intro hmem
  rcases List.mem_append.mp hmem with hsign | hrelease
  · generalize bound.operator = operator at hsign
    cases operator <;> simp [Operator.text] at hsign
  · exact absurd (mem_releaseText hrelease) (by decide)

/-- The hyphen of a bound `<X-0` names nothing that the bound lets in. -/
theorem Unasking.text {bound : Bound} (hbound : bound.Unasking) :
    SemanticVersions.Unasking bound.text := by
  have hhyphen := bound.hyphen_not_mem
  rcases hbound with hnone | ⟨hless, hzero⟩
  · apply unasking_of_not_mem
    rw [text_eq, hnone]
    simpa [Version.markedText] using hhyphen
  · intro front c back htext
    rw [text_eq, hzero] at htext
    obtain ⟨rfl, -, htail⟩ := (List.append_cons_inj_of_notMem hhyphen (by simp)).mp htext
    obtain ⟨rfl, rfl⟩ : '0' = c ∧ [] = back := by simpa using htail
    refine .inr ⟨rfl, by simp, bound.releaseText, ?_, fun d hd => mem_releaseText hd⟩
    rw [hless]
    exact List.suffix_rfl

/-- Bounds that name no prerelease are written without one. -/
theorem unasking_textOfList {bounds : List Bound} (hbounds : ∀ bound ∈ bounds, bound.Unasking) :
    SemanticVersions.Unasking (textOfList bounds) := by
  apply unasking_joinWith
  intro text htext
  obtain ⟨bound, hbound, rfl⟩ := List.mem_map.mp htext
  exact (hbounds bound hbound).text

end Bound

namespace Partial

/-- A partial version in a text whose hyphens have blanks behind them has no prerelease. -/
theorem prerelease_eq_nil {text : Text} {version : Partial} (hread : read? text = some version)
    (hopen : HyphensOpen text) : version.prerelease = [] := by
  obtain ⟨release, suffix, build, hparts, hnone | hsuffix, _⟩ := hasParts_of_read? hread
  · exact hnone
  cases suffix with
  | nil => exact hsuffix
  | cons first others =>
    have hfirst := hparts.prerelease_field first (by simp)
    obtain ⟨c, rest, rfl⟩ := List.exists_cons_of_ne_nil (Fields.ne_nil_of_isPrereleaseField hfirst)
    have hblank : isBlank c = true := by
      apply hopen
      refine List.IsInfix.trans ?_ (List.dropWhile_suffix isLead).isInfix
      rw [hparts.text_eq, Version.markedText, if_neg (by simp), joinWith_cons_char]
      exact ⟨joinWith ['.'] release, joinWith ['.'] (rest :: others) ++
        Version.markedText '+' build, by simp⟩
    have hidentifier := Fields.isIdentifierChar_of_mem_field hfirst (c := c) (by simp)
    rw [not_isBlank_of_isIdentifierChar hidentifier] at hblank
    cases hblank

end Partial

namespace Shorthand

theorem unasking_interval {lower : Bound} (hlower : lower.prerelease = [])
    (major minor patch : Nat) :
    ∀ bound ∈ [lower, .below major minor patch], bound.Unasking := by
  intro bound hbound
  simp only [List.mem_cons, List.not_mem_nil, or_false] at hbound
  rcases hbound with rfl | rfl
  · exact .inl hlower
  · exact Bound.unasking_below major minor patch

theorem caretBounds_unasking {version : Partial} (hnone : version.prerelease = [])
    {bounds : List Bound} (hbounds : caretBounds? version = some bounds) :
    ∀ bound ∈ bounds, bound.Unasking := by
  cases version with
  | any =>
    cases hbounds
    simp
  | major M =>
    obtain ⟨after, _, hbounds⟩ := Option.bind_eq_some_iff.mp hbounds
    cases hbounds
    exact unasking_interval rfl after 0 0
  | minor M m =>
    rw [caretBounds?] at hbounds
    split at hbounds
    · obtain ⟨after, _, hbounds⟩ := Option.bind_eq_some_iff.mp hbounds
      cases hbounds
      exact unasking_interval rfl M after 0
    · obtain ⟨after, _, hbounds⟩ := Option.bind_eq_some_iff.mp hbounds
      cases hbounds
      exact unasking_interval rfl after 0 0
  | full M m p prerelease =>
    rw [caretBounds?] at hbounds
    split at hbounds
    · split at hbounds
      · obtain ⟨after, _, hbounds⟩ := Option.bind_eq_some_iff.mp hbounds
        cases hbounds
        exact unasking_interval hnone M m after
      · obtain ⟨after, _, hbounds⟩ := Option.bind_eq_some_iff.mp hbounds
        cases hbounds
        exact unasking_interval hnone M after 0
    · obtain ⟨after, _, hbounds⟩ := Option.bind_eq_some_iff.mp hbounds
      cases hbounds
      exact unasking_interval hnone after 0 0

theorem tildeBounds_unasking {version : Partial} (hnone : version.prerelease = [])
    {bounds : List Bound} (hbounds : tildeBounds? version = some bounds) :
    ∀ bound ∈ bounds, bound.Unasking := by
  cases version with
  | any =>
    cases hbounds
    simp
  | major M =>
    obtain ⟨after, _, hbounds⟩ := Option.bind_eq_some_iff.mp hbounds
    cases hbounds
    exact unasking_interval rfl after 0 0
  | minor M m =>
    obtain ⟨after, _, hbounds⟩ := Option.bind_eq_some_iff.mp hbounds
    cases hbounds
    exact unasking_interval rfl M after 0
  | full M m p prerelease =>
    obtain ⟨after, _, hbounds⟩ := Option.bind_eq_some_iff.mp hbounds
    cases hbounds
    exact unasking_interval hnone M after 0

theorem lineBounds_unasking {operator : Operator} {first : Nat × Nat} {after? : Option (Nat × Nat)}
    {bounds : List Bound} (hbounds : lineBounds? operator first after? = some bounds) :
    ∀ bound ∈ bounds, bound.Unasking := by
  have hsingle : ∀ bound : Bound, bound.Unasking → ∀ other ∈ [bound], other.Unasking := by simp
  unfold lineBounds? at hbounds
  split at hbounds
  all_goals
    obtain ⟨⟨M, m⟩, _, hbounds⟩ := Option.bind_eq_some_iff.mp hbounds
    cases hbounds
  · exact hsingle _ (.inl rfl)
  · exact hsingle _ (.inl rfl)
  · exact hsingle _ (Bound.unasking_below M m 0)
  · exact hsingle _ (Bound.unasking_below M m 0)
  · exact unasking_interval rfl M m 0

theorem comparedBounds_unasking {operator : Operator} {version : Partial}
    (hnone : version.prerelease = []) {bounds : List Bound}
    (hbounds : comparedBounds? operator version = some bounds) :
    ∀ bound ∈ bounds, bound.Unasking := by
  cases version with
  | any =>
    cases operator <;> cases hbounds <;> simp [Bound.unasking_below]
  | major M => exact lineBounds_unasking hbounds
  | minor M m => exact lineBounds_unasking hbounds
  | full M m p prerelease =>
    cases hbounds
    intro bound hbound
    rw [List.mem_singleton.mp hbound]
    exact .inl hnone

/-- A shorthand of a version without prerelease stands for bounds that ask for none. -/
theorem bounds_unasking {shorthand : Shorthand} (hnone : shorthand.version.prerelease = [])
    {bounds : List Bound} (hbounds : shorthand.bounds? = some bounds) :
    ∀ bound ∈ bounds, bound.Unasking := by
  cases shorthand with
  | caret version => exact caretBounds_unasking hnone hbounds
  | tilde version => exact tildeBounds_unasking hnone hbounds
  | compared operator version => exact comparedBounds_unasking hnone hbounds

/-- A shorthand in a token with none but harmless hyphens has no prerelease. -/
theorem prerelease_eq_nil {token : Text} (htoken : Unasking token) {shorthand : Shorthand}
    (hread : read? token = some shorthand) : shorthand.version.prerelease = [] := by
  rcases of_read? hread with ⟨front, rest, rfl, hfront, hversion⟩ | ⟨_, hfull⟩
  · -- Behind a caret or a tilde nothing can stand that ends in `<` and a release.
    obtain ⟨release, suffix, build, hparts, _⟩ := Partial.hasParts_of_read? hversion
    have hless : '<' ∉ front ++ rest := by
      rw [List.mem_append, not_or]
      constructor
      · rcases hfront with rfl | rfl | rfl <;> decide
      · exact fun hmem => absurd (hparts.mem hmem) (by decide)
    have hopen : HyphensOpen (front ++ rest) := htoken.hyphensOpen hless
    have hrest : rest <:+: front ++ rest := (List.suffix_append front rest).isInfix
    exact Partial.prerelease_eq_nil hversion (hopen.of_isInfix hrest)
  · exact Partial.prerelease_of_not_isFull hfull

end Shorthand

/-! ### Hyphen ranges -/

namespace HyphenRange

section Bounds

variable {text : Text} {range : HyphenRange} (hopen : HyphensOpen text)
  (hread : read? text = some range)

include hopen hread

theorem unasking_lowerBound : Unasking range.lowerBound := by
  obtain ⟨hlower, -⟩ := of_read? hread
  have htext : HyphensOpen range.lowerText := hopen.of_isInfix hlower
  unfold lowerBound
  split
  · exact unasking_of_not_mem (by simp)
  · exact Bound.Unasking.text (.inl rfl)
  · exact Bound.Unasking.text (.inl rfl)
  · exact ((htext.cons (by decide)).cons (by decide)).unasking

theorem unasking_upperBound {bound : Text} (hbound : range.upperBound? = some bound) :
    Unasking bound := by
  obtain ⟨-, hupper, -, hversion⟩ := of_read? hread
  have htext : HyphensOpen range.upperText := hopen.of_isInfix hupper
  have hnone := Partial.prerelease_eq_nil hversion htext
  unfold upperBound? at hbound
  split at hbound
  · cases hbound
    exact unasking_of_not_mem (by simp)
  · obtain ⟨after, _, hbound⟩ := Option.bind_eq_some_iff.mp hbound
    cases hbound
    exact (Bound.unasking_below after 0 0).text
  · obtain ⟨after, _, hbound⟩ := Option.bind_eq_some_iff.mp hbound
    cases hbound
    exact (Bound.unasking_below _ after 0).text
  · cases hbound
    exact ((htext.cons (by decide)).cons (by decide)).unasking
  · next hsome hfull =>
    rw [hfull] at hnone
    exact absurd hnone hsome

theorem unasking_bounds {bounds : Text} (hbounds : range.bounds? = some bounds) :
    Unasking bounds := by
  obtain ⟨upper, hupper, hbounds⟩ := Option.bind_eq_some_iff.mp hbounds
  cases hbounds
  have hlower := unasking_lowerBound hopen hread
  exact (hlower.append_blank (unasking_upperBound hopen hread hupper) (by decide)).trim

end Bounds

end HyphenRange

/-! ### The normal form of an alternative -/

namespace Normal

/-- Writing a hyphen range out brings in no prerelease. -/
theorem unasking_expandHyphen {alternative expanded : Text} (hopen : HyphensOpen alternative)
    (hexpand : expandHyphen alternative = .ok expanded) : Unasking expanded := by
  unfold expandHyphen at hexpand
  split at hexpand
  · cases hexpand
    exact hopen.unasking
  · next range hread =>
    split at hexpand
    · next bounds hbounds =>
      cases hexpand
      exact HyphenRange.unasking_bounds hopen hread hbounds
    · cases hexpand

/-- Writing a shorthand out brings in no prerelease. -/
theorem unasking_expandToken {token expanded : Text} (htoken : Unasking token)
    (hblanks : ∀ c ∈ token, isBlank c = false) (hexpand : expandToken token = .ok expanded) :
    Unasking expanded := by
  unfold expandToken at hexpand
  split at hexpand
  · cases hexpand
    exact Spacing.unasking_dropStars [] hblanks htoken
  · next shorthand hread =>
    split at hexpand
    · next bounds hbounds =>
      cases hexpand
      have hnone := Shorthand.prerelease_eq_nil htoken hread
      exact Bound.unasking_textOfList (Shorthand.bounds_unasking hnone hbounds)
    · cases hexpand

/-- What stands in an alternative and what is written out for it names no prerelease. -/
theorem unasking_ofAlternative {alternative normal : Text} (hopen : HyphensOpen alternative)
    (hnormal : ofAlternative alternative = .ok normal) : Unasking normal := by
  obtain ⟨expanded, tokens, hexpand, htokens, rfl⟩ := ofAlternative_eq_ok hnormal
  have hclosed := Spacing.unasking_close (unasking_expandHyphen hopen hexpand)
  apply unasking_joinWith
  intro piece hpiece
  obtain ⟨token, htoken, hexpandToken⟩ := (mem_mapM_iff htokens).mp hpiece
  exact unasking_expandToken (hclosed.of_mem_splitBlanks htoken)
    (not_isBlank_of_mem_piecesFrom token htoken) hexpandToken

end Normal

end SemanticVersions
