import SemanticVersions.Proofs.Comparator.Intersection
import SemanticVersions.Proofs.Range.Stability

/-!
# Bars as union

The alternatives of two range texts with bars between them are those of the one
followed by those of the other, so the whole text reads whenever both parts
do.  Simplifying the alternatives loses no release.  It loses prereleases only
where an alternative without condition stands for all the others, because such
an alternative accepts none.
-/

namespace SemanticVersions

namespace Comparator

/-- An alternative without condition accepts the releases. -/
theorem testAll_any (v : Version) : testAll [.any] v = !v.isPrerelease := by
  simp [testAll, test, admits]

end Comparator

namespace Range

open Comparator

/-! ### Simplifying and acceptance -/

/-- An alternative that counts as empty accepts nothing. -/
theorem testAll_of_isNullAlternative {comparators : List Comparator}
    (hnull : isNullAlternative comparators = true) (v : Version) :
    testAll comparators v = false := by
  cases comparators with
  | nil => cases hnull
  | cons c rest => simp [testAll, test_of_isNullSet hnull v]

theorem simplify_eq_any_iff {alternatives : List (List Comparator)} :
    simplify alternatives = [[.any]] ↔ [.any] ∈ alternatives := by
  constructor
  · intro hsimplify
    apply mem_of_mem_simplify
    simp [hsimplify]
  · exact simplify_of_mem_any

/-- Simplified alternatives accept what some alternative accepted, except for the
prereleases that an alternative without condition shuts out. -/
theorem exists_mem_simplify_iff {alternatives : List (List Comparator)}
    (hne : alternatives ≠ []) (v : Version) :
    (∃ comparators ∈ simplify alternatives, testAll comparators v = true) ↔
      (∃ comparators ∈ alternatives, testAll comparators v = true) ∧
        ¬ (v.isPrerelease = true ∧ [.any] ∈ alternatives) := by
  by_cases hany : [.any] ∈ alternatives
  · rw [simplify_of_mem_any hany]
    constructor
    · rintro ⟨comparators, hmem, haccept⟩
      rw [List.mem_singleton.mp hmem] at haccept
      refine ⟨⟨_, hany, haccept⟩, ?_⟩
      rintro ⟨hprerelease, _⟩
      rw [testAll_any, hprerelease] at haccept
      cases haccept
    · rintro ⟨_, hrelease⟩
      refine ⟨[.any], by simp, ?_⟩
      rw [testAll_any]
      simpa [hany] using hrelease
  · have hkept : ∀ comparators ∈ alternatives, testAll comparators v = true →
        comparators ∈ satisfiableAlternatives alternatives := by
      intro comparators hmem haccept
      apply List.mem_filter.mpr ⟨hmem, ?_⟩
      cases hnull : isNullAlternative comparators with
      | false => rfl
      | true =>
        rw [testAll_of_isNullAlternative hnull] at haccept
        cases haccept
    constructor
    · rintro ⟨comparators, hmem, haccept⟩
      exact ⟨⟨_, mem_of_mem_simplify hmem, haccept⟩, fun hboth => hany hboth.2⟩
    · rintro ⟨⟨comparators, hmem, haccept⟩, _⟩
      have hsome := hkept comparators hmem haccept
      refine ⟨comparators, ?_, haccept⟩
      cases simplify_of_not_mem_any hany hne with
      | inl hall =>
        rw [hall.2]
        exact hsome
      | inr honly =>
        obtain ⟨_, _, hnone, _⟩ := honly
        rw [hnone] at hsome
        cases hsome

/-! ### Bars between range texts -/

/-- The alternatives of texts with bars between them are those of both. -/
theorem alternativeTexts_append_bars (left right : Text) :
    alternativeTexts (left ++ " || ".toList ++ right) =
      alternativeTexts left ++ alternativeTexts right := by
  have hbars : left ++ " || ".toList ++ right = left ++ ' ' :: '|' :: '|' :: ' ' :: right := by
    simp
  obtain ⟨front, last, hleft, hboth⟩ := splitBars_append_blank_bars left (' ' :: right)
  obtain ⟨first, rest, hright⟩ := List.exists_cons_of_ne_nil (splitBars_ne_nil right)
  have hblank : splitBars (' ' :: right) = (' ' :: first) :: rest := by
    rw [splitBars_cons (by simp), hright]
    rfl
  rw [hbars, alternativeTexts, alternativeTexts, alternativeTexts, hboth, hblank, hleft, hright]
  simp [trim_append_of_blank, trim_cons_of_blank, show isBlank ' ' = true by decide]

theorem read_append_bars {left right : Text} {these those : List (List Comparator)}
    (hleft : (alternativeTexts left).mapM readAlternative = .ok these)
    (hright : (alternativeTexts right).mapM readAlternative = .ok those) :
    read (left ++ " || ".toList ++ right) =
      .ok ⟨left ++ " || ".toList ++ right, simplify (these ++ those)⟩ := by
  apply read_of_mapM
  rw [alternativeTexts_append_bars, List.mapM_append, hleft, hright]
  rfl

/-- Two range texts with bars between them read as a range that accepts what
either accepts.  Only if one of them has no condition, and so accepts each
release and no prerelease, does the whole range accept no prerelease either. -/
theorem bars_read_as_union {left right : Text} {a b : Range}
    (hleft : read left = .ok a) (hright : read right = .ok b) :
    ∃ union, read (left ++ " || ".toList ++ right) = .ok union ∧
      ∀ v, union.test v = true ↔
        (a.test v = true ∨ b.test v = true) ∧
          ¬ (v.isPrerelease = true ∧ (a.alternatives = [[.any]] ∨ b.alternatives = [[.any]])) := by
  obtain ⟨these, hthese, rfl⟩ := read_eq_ok_iff.mp hleft
  obtain ⟨those, hthose, rfl⟩ := read_eq_ok_iff.mp hright
  refine ⟨_, read_append_bars hthese hthose, ?_⟩
  intro v
  have hne := alternatives_ne_nil hthese
  have hboth : these ++ those ≠ [] := by simp [hne]
  simp only [test_iff, simplify_eq_any_iff]
  rw [exists_mem_simplify_iff hboth, exists_mem_simplify_iff hne,
    exists_mem_simplify_iff (alternatives_ne_nil hthose)]
  simp only [List.mem_append]
  grind

theorem bars_read_as_union_caret :
    ∃ union, read ("^1.2.3-0 || <0.0.0-0".toList ++ " || ".toList ++ "3.x".toList) = .ok union ∧
      union.test .samplePrerelease = true := by
  have hcaret : readAlternative "^1.2.3-0".toList =
      .ok [.bound .greaterEqual ⟨1, 2, 3, [.numeric 0], []⟩,
        .bound .less ⟨2, 0, 0, [.numeric 0], []⟩] := by
    rw [readAlternative_of_no_blank (not_isBlank_of_all (by decide))]
    decide
  have hnull : readAlternative "<0.0.0-0".toList = .ok [.nullSet] := by
    have hwell : Comparator.nullSet.WellFormed := ⟨rfl, by decide⟩
    exact readAlternative_text hwell
  have hpart : readAlternative "3.x".toList =
      .ok [.bound .greaterEqual ⟨3, 0, 0, [], []⟩, .bound .less ⟨4, 0, 0, [.numeric 0], []⟩] := by
    rw [readAlternative_of_no_blank (not_isBlank_of_all (by decide))]
    decide
  have hleft : (alternativeTexts "^1.2.3-0 || <0.0.0-0".toList).mapM readAlternative =
      .ok [[.bound .greaterEqual ⟨1, 2, 3, [.numeric 0], []⟩,
        .bound .less ⟨2, 0, 0, [.numeric 0], []⟩], [.nullSet]] := by
    have htexts : alternativeTexts "^1.2.3-0 || <0.0.0-0".toList =
        ["^1.2.3-0".toList, "<0.0.0-0".toList] := by decide
    rw [htexts, List.mapM_cons, hcaret, List.mapM_cons, hnull]
    rfl
  have hright : (alternativeTexts "3.x".toList).mapM readAlternative =
      .ok [[.bound .greaterEqual ⟨3, 0, 0, [], []⟩,
        .bound .less ⟨4, 0, 0, [.numeric 0], []⟩]] := by
    have htexts : alternativeTexts "3.x".toList = ["3.x".toList] := by decide
    rw [htexts, List.mapM_cons, hpart]
    rfl
  obtain ⟨union, hunion, htest⟩ :=
    bars_read_as_union (read_of_mapM hleft) (read_of_mapM hright)
  exact ⟨union, hunion, (htest .samplePrerelease).mpr (by decide)⟩

/-- The range `*` accepts no prerelease, and takes from the other range those that it
accepts. -/
theorem star_loses_prerelease :
    ∃ a b union, read "1.2.3-pre".toList = .ok a ∧ read "*".toList = .ok b ∧
      read ("1.2.3-pre".toList ++ " || ".toList ++ "*".toList) = .ok union ∧
        a.test .samplePrerelease = true ∧ union.test .samplePrerelease = false := by
  have hequal : readAlternative "1.2.3-pre".toList = .ok [.bound .equal .samplePrerelease] := by
    have hwell : (Comparator.bound .equal .samplePrerelease).WellFormed := ⟨rfl, by decide⟩
    exact readAlternative_text hwell
  have hstar : readAlternative "*".toList = .ok [.any] := by
    rw [readAlternative_of_no_blank (not_isBlank_of_all (by decide))]
    decide
  have hleft : (alternativeTexts "1.2.3-pre".toList).mapM readAlternative =
      .ok [[.bound .equal .samplePrerelease]] := by
    have htexts : alternativeTexts "1.2.3-pre".toList = ["1.2.3-pre".toList] := by decide
    rw [htexts, List.mapM_cons, hequal]
    rfl
  have hright : (alternativeTexts "*".toList).mapM readAlternative = .ok [[.any]] := by
    have htexts : alternativeTexts "*".toList = ["*".toList] := by decide
    rw [htexts, List.mapM_cons, hstar]
    rfl
  exact ⟨_, _, _, read_of_mapM hleft, read_of_mapM hright, read_append_bars hleft hright,
    by decide, by decide⟩

end Range

end SemanticVersions
