import SemanticVersions.Proofs.Range.Stability

/-!
# What reading a range guarantees

A range is refused only for a text in it that is no comparator or no version;
there is always an alternative left, and always an operator.  A range that reads
has a fixed shape: no comparator is written twice, one without condition stands
for the whole range, and so does one that nothing satisfies.  The empty canonical
text belongs to the range without condition alone.
-/

namespace SemanticVersions

/-! ### Where errors come from -/

namespace Normal

theorem cause_of_expandHyphen {alternative : Text} {cause : Error}
    (hexpand : expandHyphen alternative = .error cause) :
    cause = .invalidComparator alternative := by
  unfold expandHyphen at hexpand
  split at hexpand
  · cases hexpand
  · split at hexpand
    · cases hexpand
    · exact (Except.error.inj hexpand).symm

theorem cause_of_expandToken {token : Text} {cause : Error}
    (hexpand : expandToken token = .error cause) : cause = .invalidComparator token := by
  unfold expandToken at hexpand
  split at hexpand
  · cases hexpand
  · split at hexpand
    · cases hexpand
    · exact (Except.error.inj hexpand).symm

/-- An alternative has no normal form for itself or for one of its tokens. -/
theorem cause_of_ofAlternative {alternative : Text} {cause : Error}
    (hnormal : ofAlternative alternative = .error cause) :
    ∃ input, cause = .invalidComparator input := by
  rcases error_of_bind hnormal with hexpand | ⟨expanded, _, htokens⟩
  · exact ⟨alternative, cause_of_expandHyphen hexpand⟩
  rcases error_of_bind htokens with hmap | ⟨tokens, _, hpure⟩
  · obtain ⟨token, _, hexpand⟩ := error_of_mapM hmap
    exact ⟨token, cause_of_expandToken hexpand⟩
  · cases hpure

end Normal

namespace Range

open Comparator

/-- Reading tokens fails for the reason that one of them fails. -/
theorem cause_of_readTokens {known : List Comparator} {tokens : List Text} {cause : Error}
    (hread : readTokens known tokens = .error cause) :
    ∃ token ∈ tokens, Comparator.read token = .error cause := by
  induction tokens generalizing known with
  | nil => cases hread
  | cons token tokens ih =>
    cases htoken : Comparator.read token with
    | error found =>
      rw [readTokens, htoken] at hread
      obtain rfl : found = cause := Except.error.inj hread
      exact ⟨token, by simp, htoken⟩
    | ok c =>
      have hlater : ∃ known, readTokens known tokens = .error cause := by
        rw [readTokens_cons htoken] at hread
        split at hread
        · cases hread
        · split at hread <;> exact ⟨_, hread⟩
      obtain ⟨others, hothers⟩ := hlater
      obtain ⟨other, hother, hfails⟩ := ih hothers
      exact ⟨other, by simp [hother], hfails⟩

/-- Whether an error is about a text that is no comparator or no version. -/
def RefusesPart (cause : Error) : Prop :=
  ∃ input, cause = .invalidComparator input ∨ cause = .invalidVersion input

theorem refusesPart_of_readAlternative {alternative : Text} {cause : Error}
    (hread : readAlternative alternative = .error cause) : RefusesPart cause := by
  rcases error_of_bind hread with hnormal | ⟨normal, _, hnormal⟩
  · obtain ⟨input, hcause⟩ := Normal.cause_of_ofAlternative hnormal
    exact ⟨input, .inl hcause⟩
  rcases error_of_bind hnormal with htokens | ⟨collected, _, hpure⟩
  · obtain ⟨token, _, htoken⟩ := cause_of_readTokens htokens
    rcases Comparator.cause_of_read htoken with hcause | hcause
    · exact ⟨_, .inl hcause⟩
    · exact ⟨_, .inr hcause⟩
  · cases hpure

/-- No alternative is lost while a range is read, so only a part of it can be at
fault. -/
theorem refusesPart_of_read {source : Text} {cause : Error}
    (hread : read source = .error cause) : RefusesPart cause := by
  cases hmap : (alternativeTexts source).mapM readAlternative with
  | ok alternatives =>
    rw [read_of_mapM hmap] at hread
    cases hread
  | error found =>
    have hfound : read source = .error found := by
      rw [read, hmap]
      rfl
    obtain rfl : found = cause := Except.error.inj (hfound.symm.trans hread)
    obtain ⟨alternative, _, hfails⟩ := error_of_mapM hmap
    exact refusesPart_of_readAlternative hfails

/-! ### The shape of what was read -/

section Reduced

variable {range : Range} (hreduced : Reduced range.alternatives)

include hreduced

/-- A comparator without condition is the only one of its range. -/
theorem Reduced.eq_any_of_mem {comparators : List Comparator}
    (hmem : comparators ∈ range.alternatives) (hany : .any ∈ comparators) :
    range.alternatives = [[.any]] := by
  apply hreduced.any_alone
  rwa [← (hreduced.simplified comparators hmem).any_alone hany]

/-- A comparator that nothing satisfies is the only one of its range. -/
theorem Reduced.eq_singleton_of_isNullSet {comparators : List Comparator}
    (hmem : comparators ∈ range.alternatives) {c : Comparator} (hc : c ∈ comparators)
    (hnull : c.isNullSet = true) : range.alternatives = [[c]] := by
  have halone := (hreduced.simplified comparators hmem).null_alone c hc hnull
  rw [halone] at hmem
  exact hreduced.null_alone [c] hmem hnull

/-- Only the range without condition has the empty canonical text. -/
theorem Reduced.text_eq_nil_iff : range.text = [] ↔ range.alternatives = [[.any]] := by
  constructor
  · intro htext
    have hread : read any.source = .ok any := read_of_toOption (by decide +kernel)
    have hany : Reduced any.alternatives := reduced_of_read hread
    have htexts := map_text_eq_of_text_eq (a := range) (b := any) hreduced hany htext
    obtain ⟨comparators, halternatives, htexts⟩ := List.map_eq_singleton_iff.mp htexts
    obtain ⟨c, hcomparators, hc⟩ := List.map_eq_singleton_iff.mp htexts
    rw [halternatives, hcomparators, Comparator.text_eq_nil_iff.mp hc]
  · intro halternatives
    rw [text, halternatives]
    rfl

end Reduced

/-- A range is never refused for lack of an alternative or for an operator.  When it
reads, it has alternatives and each of them comparators; an alternative has no two
comparators with one text, and only operators of bounds and of equality; a comparator
without condition, or one that nothing satisfies, is all there is in the range; and the
canonical text is empty for the range without condition only. -/
theorem read_keeps_invariant (source : Text) :
    (∀ cause, read source = .error cause →
      (∀ input, cause ≠ .invalidRange input) ∧ ∀ input, cause ≠ .invalidOperator input) ∧
    ∀ range, read source = .ok range →
      range.alternatives ≠ [] ∧
      (∀ comparators ∈ range.alternatives,
        comparators ≠ [] ∧ (comparators.map Comparator.text).Nodup ∧
          (∀ c ∈ comparators,
            c.operator ∈ [.equal, .greater, .greaterEqual, .less, .lessEqual]) ∧
          (.any ∈ comparators → range.alternatives = [[.any]]) ∧
          ∀ c ∈ comparators, c.isNullSet = true → range.alternatives = [[c]]) ∧
      (range.text = [] ↔ range.alternatives = [[.any]]) := by
  constructor
  · intro cause hread
    obtain ⟨input, rfl | rfl⟩ := refusesPart_of_read hread <;> simp
  · intro range hread
    have hreduced := reduced_of_read hread
    refine ⟨hreduced.nonempty, fun comparators hmem => ?_, hreduced.text_eq_nil_iff⟩
    have hsimplified := hreduced.simplified comparators hmem
    refine ⟨hsimplified.nonempty, hsimplified.distinct, fun c hc => ?_,
      hreduced.eq_any_of_mem hmem, fun c hc => hreduced.eq_singleton_of_isNullSet hmem hc⟩
    have hsign := (hsimplified.wellFormed c hc).hasSign_operator
    cases hoperator : c.operator <;> simp_all [Operator.hasSign]

theorem read_keeps_invariant_sample :
    (∃ cause, read "1.x || foo".toList = .error cause ∧
      ∀ input, cause ≠ .invalidRange input) ∧
    ∃ range, read "* 1.x || >=2.5.0 >=v2.5.0+b || >*".toList = .ok range ∧
      range.alternatives.length = 2 ∧
        (∀ comparators ∈ range.alternatives, (comparators.map Comparator.text).Nodup) ∧
          range.text ≠ [] := by
  have hrefused : read "1.x || foo".toList = .error (.invalidComparator "foo".toList) := by
    decide +kernel
  have hread : read "* 1.x || >=2.5.0 >=v2.5.0+b || >*".toList =
      .ok ⟨"* 1.x || >=2.5.0 >=v2.5.0+b || >*".toList,
        [[.bound .greaterEqual ⟨1, 0, 0, [], []⟩, .bound .less ⟨2, 0, 0, [.numeric 0], []⟩],
          [.bound .greaterEqual ⟨2, 5, 0, [], []⟩]]⟩ :=
    read_of_toOption (by decide +kernel)
  obtain ⟨_, hshape, hempty⟩ := (read_keeps_invariant _).2 _ hread
  refine ⟨⟨_, hrefused, ((read_keeps_invariant _).1 _ hrefused).1⟩, _, hread, rfl,
    fun comparators hmem => (hshape comparators hmem).2.1, fun hnil => ?_⟩
  exact absurd (hempty.mp hnil) (by decide)

end Range

end SemanticVersions
