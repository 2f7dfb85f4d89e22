import SemanticVersions.Proofs.Range.Equality
import SemanticVersions.Proofs.Range.Refusal
import SemanticVersions.Proofs.Range.Union

/-!
# The meaning of a simplified alternative

Reading an alternative leaves out what adds no condition: comparators that are
written twice, those without condition, and all others beside one that nothing
satisfies.  None of this changes which versions are accepted.  A token
`>=0.0.0` is left out too, as if it had no condition.  This is right for every
release, but the bound shuts out the prereleases of `0.0.0`, and without it they
are left to the other comparators.
-/

namespace SemanticVersions

namespace Comparator

/-! ### Comparators that add nothing -/

/-- A version is accepted if all comparators hold, and a prerelease if one of them admits it. -/
theorem testAll_iff {comparators : List Comparator} {v : Version} :
    testAll comparators v = true ↔
      (∀ c ∈ comparators, c.test v = true) ∧
        (v.isPrerelease = true → ∃ c ∈ comparators, admits v c = true) := by
  rw [testAll, Bool.and_eq_true, List.all_eq_true, Bool.or_eq_true, List.any_eq_true,
    Bool.not_eq_true']
  apply and_congr_right
  intro _
  cases v.isPrerelease <;> simp

theorem testAll_filter_not_isAny (comparators : List Comparator) (v : Version) :
    testAll (comparators.filter (!·.isAny)) v = testAll comparators v := by
  rw [testAll, testAll, List.all_filter, List.any_filter]
  congr 2
  · funext c
    cases c <;> simp [isAny, test]
  · congr 1
    funext c
    cases c <;> simp [isAny, admits]

/-- Beside a comparator with its text a comparator adds nothing. -/
theorem testAll_append_of_mem_text {known : List Comparator} {c d : Comparator} (hd : d ∈ known)
    (hsame : c.withoutBuild = d.withoutBuild) (others : List Comparator) (v : Version) :
    testAll (known ++ c :: others) v = testAll (known ++ others) v := by
  have htest : c.test v = d.test v := by
    rw [← test_withoutBuild, hsame, test_withoutBuild]
  have hadmits : admits v c = admits v d := by
    rw [← admits_withoutBuild, hsame, admits_withoutBuild]
  rw [Bool.eq_iff_iff, testAll_iff, testAll_iff]
  simp only [List.mem_append, List.mem_cons]
  grind

theorem testAll_eq_false_of_mem_isNullSet {comparators : List Comparator} {c : Comparator}
    (hmem : c ∈ comparators) (hnull : c.isNullSet = true) (v : Version) :
    testAll comparators v = false := by
  apply Bool.eq_false_iff.mpr
  intro haccept
  have htest := (testAll_iff.mp haccept).1 c hmem
  rw [test_of_isNullSet hnull] at htest
  cases htest

end Comparator

namespace Range

open Comparator

theorem testAll_dropAny (comparators : List Comparator) (v : Version) :
    testAll (dropAny comparators) v = testAll comparators v := by
  rw [dropAny]
  split
  · exact testAll_filter_not_isAny comparators v
  · rfl

/-! ### Reading tokens one by one -/

/-- What reading leaves of the comparators of an alternative accepts the same
versions as all of them. -/
theorem exists_readTokens_testAll {known comparators : List Comparator} {tokens : List Text}
    (hknown : ∀ c ∈ known, c.WellFormed) (hread : tokens.mapM Comparator.read = .ok comparators) :
    ∃ collected, readTokens known tokens = .ok collected ∧
      ∀ v, testAll collected v = testAll (known ++ comparators) v := by
  induction tokens generalizing known comparators with
  | nil =>
    obtain rfl : [] = comparators := Except.ok.inj hread
    exact ⟨known, rfl, fun v => by rw [List.append_nil]⟩
  | cons token tokens ih =>
    obtain ⟨c, others, hc, hothers, rfl⟩ := mapM_cons_eq_ok_iff.mp hread
    have hwell := Comparator.wellFormed_of_read hc
    rw [readTokens_cons hc]
    by_cases hnull : c.isNullSet = true
    · refine ⟨[c], if_pos hnull, fun v => ?_⟩
      rw [testAll_eq_false_of_mem_isNullSet (List.mem_singleton.mpr rfl) hnull,
        testAll_eq_false_of_mem_isNullSet (by simp) hnull]
    rw [if_neg hnull]
    by_cases hrepeated : hasText known c = true
    · rw [if_pos hrepeated]
      obtain ⟨collected, hcollected, hsame⟩ := ih hknown hothers
      refine ⟨collected, hcollected, fun v => ?_⟩
      have htext : ∃ d ∈ known, d.text = c.text := by simpa [hasText] using hrepeated
      obtain ⟨d, hd, htext⟩ := htext
      have hbuild := withoutBuild_eq_of_text_eq hwell (hknown d hd) htext.symm
      rw [hsame, testAll_append_of_mem_text hd hbuild]
    · rw [if_neg hrepeated]
      have hmore : ∀ e ∈ known ++ [c], e.WellFormed :=
        List.forall_mem_append.mpr ⟨hknown, List.forall_mem_singleton.mpr hwell⟩
      obtain ⟨collected, hcollected, hsame⟩ := ih hmore hothers
      refine ⟨collected, hcollected, fun v => ?_⟩
      rw [hsame, List.append_assoc, List.singleton_append]

theorem exists_readAlternative_testAll {alternative normal : Text}
    {comparators : List Comparator} (hnormal : Normal.ofAlternative alternative = .ok normal)
    (hread : (Normal.tokens normal).mapM Comparator.read = .ok comparators) :
    ∃ simplified, readAlternative alternative = .ok simplified ∧
      ∀ v, testAll simplified v = testAll comparators v := by
  obtain ⟨collected, hcollected, hsame⟩ := exists_readTokens_testAll (List.forall_mem_nil _) hread
  refine ⟨dropAny collected, ?_, fun v => ?_⟩
  · rw [readAlternative, hnormal]
    change readNormal normal = _
    rw [readNormal, hcollected]
    rfl
  · rw [testAll_dropAny, hsame, List.nil_append]

/-! ### The bound that is left out -/

/-- The token that is read as no condition. -/
def zeroToken : Text :=
  ['>', '=', '0', '.', '0', '.', '0']

theorem read_zeroToken :
    Comparator.read zeroToken = .ok (.bound .greaterEqual ⟨0, 0, 0, [], []⟩) := by
  decide

theorem dropAtLeastZero_eq {token : Text} (htoken : ∀ c ∈ token, isBlank c = false) :
    Spacing.dropAtLeastZero token = if token = zeroToken then [] else token := by
  rw [Spacing.dropAtLeastZero]
  exact if_congr (Spacing.isAtLeastZero_iff htoken) rfl rfl

def BelowZero (v : Version) : Prop :=
  v.isPrerelease = true ∧ v.major = 0 ∧ v.minor = 0 ∧ v.patch = 0

/-- Only prereleases of `0.0.0` do not satisfy `>=0.0.0`. -/
theorem test_atLeastZero_iff {v : Version} :
    (Comparator.bound .greaterEqual ⟨0, 0, 0, [], []⟩).test v = true ↔ ¬ BelowZero v := by
  have hge : (Comparator.bound .greaterEqual ⟨0, 0, 0, [], []⟩).test v = true ↔
      compare v ⟨0, 0, 0, [], []⟩ ≠ .lt := Ordering.isGE_iff_ne_lt
  rw [hge, Ne, Version.compare_zero_eq_lt_iff, BelowZero]

/-- A comparator that admits nothing only adds its own condition. -/
theorem testAll_iff_of_mem_iff {comparators kept : List Comparator} {d : Comparator} {p : Prop}
    {v : Version} (hmem : ∀ c, c ∈ comparators ↔ (p ∧ c = d) ∨ c ∈ kept)
    (hadmits : admits v d = false) :
    testAll comparators v = true ↔ testAll kept v = true ∧ (p → d.test v = true) := by
  simp only [testAll_iff, hmem]
  grind

section Tokens

variable {tokens : List Text} {kept : List Comparator}
  (hkept : (tokens.filter (· ≠ zeroToken)).mapM Comparator.read = .ok kept)

include hkept

theorem mem_comparators_iff {comparators : List Comparator}
    (hread : tokens.mapM Comparator.read = .ok comparators) (c : Comparator) :
    c ∈ comparators ↔
      (zeroToken ∈ tokens ∧ c = .bound .greaterEqual ⟨0, 0, 0, [], []⟩) ∨ c ∈ kept := by
  rw [mem_mapM_iff hread, mem_mapM_iff hkept]
  simp only [List.mem_filter, decide_eq_true_eq]
  constructor
  · rintro ⟨token, htoken, hc⟩
    by_cases hzero : token = zeroToken
    · subst hzero
      rw [read_zeroToken] at hc
      exact .inl ⟨htoken, (Except.ok.inj hc).symm⟩
    · exact .inr ⟨token, ⟨htoken, hzero⟩, hc⟩
  · rintro (⟨hzero, rfl⟩ | ⟨token, ⟨htoken, _⟩, hc⟩)
    · exact ⟨zeroToken, hzero, read_zeroToken⟩
    · exact ⟨token, htoken, hc⟩

theorem mem_erased_iff {erased : List Comparator}
    (hblank : ∀ token ∈ tokens, ∀ c ∈ token, isBlank c = false)
    (hread : (tokens.map Spacing.dropAtLeastZero).mapM Comparator.read = .ok erased)
    (c : Comparator) : c ∈ erased ↔ (zeroToken ∈ tokens ∧ c = .any) ∨ c ∈ kept := by
  rw [mem_mapM_iff hread, mem_mapM_iff hkept]
  simp only [List.mem_filter, decide_eq_true_eq, List.mem_map, exists_exists_and_eq_and]
  constructor
  · rintro ⟨token, htoken, hc⟩
    rw [dropAtLeastZero_eq (hblank token htoken)] at hc
    by_cases hzero : token = zeroToken
    · rw [if_pos hzero] at hc
      exact .inl ⟨hzero ▸ htoken, (Except.ok.inj hc).symm⟩
    · rw [if_neg hzero] at hc
      exact .inr ⟨token, ⟨htoken, hzero⟩, hc⟩
  · rintro (⟨hzero, rfl⟩ | ⟨token, ⟨htoken, hne⟩, hc⟩)
    · refine ⟨zeroToken, hzero, ?_⟩
      rw [dropAtLeastZero_eq (hblank _ hzero), if_pos rfl]
      rfl
    · refine ⟨token, htoken, ?_⟩
      rwa [dropAtLeastZero_eq (hblank token htoken), if_neg hne]

end Tokens

/-- An alternative whose tokens are comparators always reads.  It accepts what its
comparators accept, `>=0.0.0` left out; and with that bound among the tokens, these
are the versions that all of its comparators accept, and besides them prereleases of
`0.0.0`, of which the bound would accept none. -/
theorem simplified_accepts_alike {alternative normal : Text} {comparators : List Comparator}
    (hnormal : Normal.ofAlternative alternative = .ok normal)
    (hread : (splitBlanks normal).mapM Comparator.read = .ok comparators) :
    ∃ simplified kept, readAlternative alternative = .ok simplified ∧
      ((splitBlanks normal).filter (· ≠ zeroToken)).mapM Comparator.read = .ok kept ∧
        ∀ v, testAll simplified v = testAll kept v ∧
          (testAll comparators v = true ↔
            testAll simplified v = true ∧ ¬ (zeroToken ∈ splitBlanks normal ∧ BelowZero v)) := by
  have haccepted := exists_mapM_iff.mp ⟨comparators, hread⟩
  have hblank : ∀ token ∈ splitBlanks normal, ∀ c ∈ token, isBlank c = false :=
    not_isBlank_of_mem_piecesFrom
  obtain ⟨kept, hkept⟩ : ∃ kept,
      ((splitBlanks normal).filter (· ≠ zeroToken)).mapM Comparator.read = .ok kept :=
    exists_mapM_iff.mpr fun token htoken => haccepted token (List.mem_filter.mp htoken).1
  obtain ⟨erased, herased⟩ : ∃ erased,
      (Normal.tokens normal).mapM Comparator.read = .ok erased := by
    apply exists_mapM_iff.mpr
    intro token htoken
    obtain ⟨source, hsource, rfl⟩ := List.mem_map.mp htoken
    rw [dropAtLeastZero_eq (hblank source hsource)]
    split
    · exact ⟨.any, rfl⟩
    · exact haccepted source hsource
  obtain ⟨simplified, hsimplified, hsame⟩ := exists_readAlternative_testAll hnormal herased
  refine ⟨simplified, kept, hsimplified, hkept, fun v => ?_⟩
  have hleft : testAll simplified v = testAll kept v := by
    rw [hsame, Bool.eq_iff_iff,
      testAll_iff_of_mem_iff (mem_erased_iff hkept hblank herased) rfl]
    exact and_iff_left fun _ => rfl
  refine ⟨hleft, ?_⟩
  rw [hleft, testAll_iff_of_mem_iff (mem_comparators_iff hkept hread) rfl, test_atLeastZero_iff,
    not_and]

theorem simplified_accepts_alike_repeated :
    ∃ simplified, readAlternative ">=0.0.0 ^1.2.3-0 >=v1.2.3-0+b *".toList = .ok simplified ∧
      testAll simplified .samplePrerelease = true := by
  have hnormal : Normal.ofAlternative ">=0.0.0 ^1.2.3-0 >=v1.2.3-0+b *".toList =
      .ok ">=0.0.0 >=1.2.3-0 <2.0.0-0 >=v1.2.3-0+b ".toList := by decide +kernel
  have hread : (splitBlanks ">=0.0.0 >=1.2.3-0 <2.0.0-0 >=v1.2.3-0+b ".toList).mapM
      Comparator.read =
        .ok [.bound .greaterEqual ⟨0, 0, 0, [], []⟩,
          .bound .greaterEqual ⟨1, 2, 3, [.numeric 0], []⟩,
          .bound .less ⟨2, 0, 0, [.numeric 0], []⟩,
          .bound .greaterEqual ⟨1, 2, 3, [.numeric 0], [['b']]⟩, .any] := by decide
  obtain ⟨simplified, kept, hsimplified, _, hsame⟩ := simplified_accepts_alike hnormal hread
  have haccept := (hsame .samplePrerelease).2.mp (by decide)
  exact ⟨simplified, hsimplified, haccept.1⟩

/-- Beside `<0.0.0-b` the bound `>=0.0.0` shuts out `0.0.0-a`, and without it this
prerelease is accepted. -/
theorem erased_bound_lets_prerelease_in :
    ∃ comparators simplified,
      Normal.ofAlternative ">=0.0.0 <0.0.0-b".toList = .ok ">=0.0.0 <0.0.0-b".toList ∧
        (splitBlanks ">=0.0.0 <0.0.0-b".toList).mapM Comparator.read = .ok comparators ∧
          readAlternative ">=0.0.0 <0.0.0-b".toList = .ok simplified ∧
            testAll comparators ⟨0, 0, 0, [.textual ['a']], []⟩ = false ∧
              testAll simplified ⟨0, 0, 0, [.textual ['a']], []⟩ = true := by
  have hsimplified : Simplified [.bound .greaterEqual ⟨0, 0, 0, [], []⟩,
      .bound .less ⟨0, 0, 0, [.textual ['b']], []⟩] := {
    nonempty := List.cons_ne_nil _ _
    wellFormed := by
      rw [List.forall_mem_cons, List.forall_mem_singleton]
      exact ⟨⟨rfl, by decide⟩, rfl, by decide⟩
    distinct := by decide
    any_alone := by decide
    null_alone := by decide }
  have hread : (splitBlanks ">=0.0.0 <0.0.0-b".toList).mapM Comparator.read =
      .ok [.bound .greaterEqual ⟨0, 0, 0, [], []⟩,
        .bound .less ⟨0, 0, 0, [.textual ['b']], []⟩] := by decide
  exact ⟨_, _, hsimplified.ofAlternative_text, hread, hsimplified.readAlternative_text,
    by decide, by decide⟩

end Range

end SemanticVersions
