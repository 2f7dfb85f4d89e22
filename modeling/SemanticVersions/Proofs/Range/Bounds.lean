import SemanticVersions.Proofs.Grammar.Entries
import SemanticVersions.Proofs.Range.Prerelease
import SemanticVersions.Proofs.Range.Simplification
import SemanticVersions.Proofs.Version.Succession

/-!
# Ranges of one shorthand

A shorthand is written out as a lower and an upper bound, either of which may be missing.
Read again, these accept the releases between them, and of the prereleases only those that
the lower bound names: the upper bound is the opening of a release, which lets in nothing
of that release, and a lower bound `>=0.0.0` is dropped without harm, as it names no
prerelease.
-/

namespace SemanticVersions

open Std

namespace Version

/-! ### Between two bounds -/

def opening (release : Version) : Version :=
  { release with prerelease := [.numeric 0], build := [] }

/-- Whether a version is accepted from a lower bound on up to the opening of a release.  A
prerelease has to be named by the lower bound. -/
def IsWithin (lower upper : Option Version) (v : Version) : Prop :=
  (∀ base ∈ lower, (compare base v).isLE = true) ∧
    (∀ release ∈ upper, compareRelease v release = .lt) ∧
      (v.isPrerelease = true → ∃ base ∈ lower, base.isPrerelease = true ∧ base.sameRelease v = true)

theorem wellFormed_opening (release : Version) : release.opening.WellFormed :=
  ⟨List.forall_mem_singleton.mpr trivial, List.forall_mem_nil _⟩

/-- The versions before the opening of a release are those of the releases before it. -/
theorem compare_opening_eq_lt_iff {v release : Version} :
    compare v release.opening = .lt ↔ compareRelease v release = .lt := by
  have hle : (compare release.opening v).isLE = true ↔ (compareRelease release v).isLE = true :=
    compare_isLE_iff_of_zero rfl
  have hnot : ∀ {a b : Version}, compareRelease b a = .lt ↔ ¬ (compareRelease a b).isLE = true :=
    fun {a b} => by rw [Ordering.isLE_iff_ne_gt, not_not, OrientedCmp.gt_iff_lt]
  have hnotVersion : compare v release.opening = .lt ↔
      ¬ (compare release.opening v).isLE = true := by
    rw [Ordering.isLE_iff_ne_gt, not_not, OrientedCmp.gt_iff_lt]
  rw [hnotVersion, hle, hnot]

end Version

namespace Bound

def ofVersion (operator : Operator) (v : Version) : Bound where
  operator := operator
  major := v.major.toNat
  minor := v.minor.toNat
  patch := v.patch.toNat
  prerelease := v.prerelease.map Identifier.text

/-- The bounds from a version on up to the opening of a release. -/
def interval (lower upper : Option Version) : List Bound :=
  lower.toList.map (ofVersion .greaterEqual) ++
    upper.toList.map fun release => ofVersion .less release.opening

theorem text_ofVersion (operator : Operator) (v : Version) :
    (ofVersion operator v).text = (Comparator.bound operator v).text := by
  simp [ofVersion, text, Comparator.text, Version.text, Version.releaseText]

end Bound

namespace Comparator

/-- The comparators from a version on up to the opening of a release. -/
def interval (lower upper : Option Version) : List Comparator :=
  lower.toList.map (bound .greaterEqual) ++
    upper.toList.map fun release => bound .less release.opening

/-- The bounds of an interval are written as its comparators are. -/
theorem textOfList_interval (lower upper : Option Version) :
    Bound.textOfList (Bound.interval lower upper) =
      Range.alternativeText (interval lower upper) := by
  have htexts : (Bound.interval lower upper).map Bound.text =
      (interval lower upper).map text := by
    simp [Bound.interval, interval, Function.comp_def, Bound.text_ofVersion]
  rw [Bound.textOfList, Range.alternativeText, htexts]

theorem mem_interval {lower upper : Option Version} {c : Comparator} :
    c ∈ interval lower upper ↔
      (∃ base ∈ lower, c = bound .greaterEqual base) ∨
        ∃ release ∈ upper, c = bound .less release.opening := by
  simp [interval, eq_comm (b := c)]

theorem wellFormed_of_mem_interval {lower upper : Option Version}
    (hlower : ∀ base ∈ lower, base.WellFormed) {c : Comparator}
    (hc : c ∈ interval lower upper) : c.WellFormed ∧ c ≠ any := by
  rcases mem_interval.mp hc with ⟨base, hbase, rfl⟩ | ⟨release, _, rfl⟩
  · exact ⟨⟨rfl, hlower base hbase⟩, by simp⟩
  · exact ⟨⟨rfl, release.wellFormed_opening⟩, by simp⟩

/-! ### Comparators that are read again -/

section Reread

variable {c : Comparator} {v : Version}

theorem admits_reread : admits v c.reread = admits v c := by
  rw [reread]
  split
  · next hzero =>
    obtain ⟨build, rfl⟩ := isAtLeastZero_iff.mp hzero
    rfl
  · exact admits_withoutBuild c v

theorem test_reread (htest : c.test v = true) : c.reread.test v = true := by
  rw [reread]
  split
  · rfl
  · rwa [test_withoutBuild]

/-- The bound that is dropped holds of every release, and it admits nothing. -/
theorem test_of_reread (htest : c.reread.test v = true)
    (hv : v.isPrerelease = false ∨ admits v c = true) : c.test v = true := by
  rw [reread] at htest
  split at htest
  · next hzero =>
    obtain ⟨build, rfl⟩ := isAtLeastZero_iff.mp hzero
    rcases hv with hrelease | hadmits
    · have hnotLess : compare v ⟨0, 0, 0, [], build⟩ ≠ .lt := by
        rw [Ne, Version.compare_zero_eq_lt_iff, hrelease]
        simp
      exact Ordering.isGE_iff_ne_lt.mpr hnotLess
    · cases hadmits
  · rwa [test_withoutBuild] at htest

theorem test_greaterEqual_iff {base : Version} :
    (bound .greaterEqual base).test v = true ↔ (compare base v).isLE = true :=
  OrientedCmp.isGE_iff_isLE

/-- To satisfy the bound below an opening is to belong to an earlier release. -/
theorem test_less_opening_iff {release : Version} :
    (bound .less release.opening).test v = true ↔ Version.compareRelease v release = .lt := by
  rw [← Version.compare_opening_eq_lt_iff]
  exact Ordering.isLT_iff_eq_lt

theorem unasking_less_opening (release : Version) : (bound .less release.opening).Unasking :=
  .inr ⟨rfl, rfl⟩

end Reread

/-- Read again, an interval accepts what is within it. -/
theorem testAll_reread_interval_iff {lower upper : Option Version} {v : Version} :
    testAll ((interval lower upper).map reread) v = true ↔ v.IsWithin lower upper := by
  have hall : (∀ c ∈ (interval lower upper).map reread, c.test v = true) ↔
      ∀ c ∈ interval lower upper, c.reread.test v = true := List.forall_mem_map
  have hsome : (∃ c ∈ (interval lower upper).map reread, admits v c = true) ↔
      ∃ c ∈ interval lower upper, admits v c = true := by
    simp [admits_reread]
  rw [testAll_iff, hall, hsome]
  constructor
  · rintro ⟨htests, hprerelease⟩
    have hupper : ∀ release ∈ upper, Version.compareRelease v release = .lt := by
      intro release hrelease
      have htest := htests _ (mem_interval.mpr (.inr ⟨release, hrelease, rfl⟩))
      exact test_less_opening_iff.mp (by rwa [← test_withoutBuild])
    -- What the opening of a release admits it does not hold of.
    have hnamed : v.isPrerelease = true →
        ∃ base ∈ lower, admits v (bound .greaterEqual base) = true := by
      intro hv
      obtain ⟨c, hc, hadmits⟩ := hprerelease hv
      rcases mem_interval.mp hc with ⟨base, hbase, rfl⟩ | ⟨release, hrelease, rfl⟩
      · exact ⟨base, hbase, hadmits⟩
      · have hfails := (unasking_less_opening release).test_eq_false hadmits
        rw [test_less_opening_iff.mpr (hupper release hrelease)] at hfails
        cases hfails
    refine ⟨fun base hbase => ?_, hupper, fun hv => ?_⟩
    · have htest := htests _ (mem_interval.mpr (.inl ⟨base, hbase, rfl⟩))
      apply test_greaterEqual_iff.mp
      apply test_of_reread htest
      cases hv : v.isPrerelease with
      | false => exact .inl rfl
      | true =>
        obtain ⟨named, hmem, hadmits⟩ := hnamed hv
        obtain rfl : named = base := Option.mem_unique hmem hbase
        exact .inr hadmits
    · obtain ⟨base, hbase, hadmits⟩ := hnamed hv
      rw [admits, Bool.and_eq_true] at hadmits
      exact ⟨base, hbase, hadmits⟩
  · rintro ⟨hlower, hupper, hprerelease⟩
    constructor
    · intro c hc
      apply test_reread
      rcases mem_interval.mp hc with ⟨base, hbase, rfl⟩ | ⟨release, hrelease, rfl⟩
      · exact test_greaterEqual_iff.mpr (hlower base hbase)
      · exact test_less_opening_iff.mpr (hupper release hrelease)
    · intro hv
      obtain ⟨base, hbase, hadmits⟩ := hprerelease hv
      refine ⟨bound .greaterEqual base, mem_interval.mpr (.inl ⟨base, hbase, rfl⟩), ?_⟩
      rw [admits, Bool.and_eq_true]
      exact hadmits

end Comparator

/-! ### Reading a shorthand -/

theorem Shorthand.bar_not_mem {token : Text} {shorthand : Shorthand}
    (hread : read? token = some shorthand) : '|' ∉ token := by
  rcases of_read? hread with ⟨front, rest, rfl, hfront, hversion⟩ | ⟨hversion, _⟩
  · have hrest : '|' ∉ rest := Partial.not_mem_of_read? hversion (by decide) (by decide)
    rw [List.mem_append, not_or]
    refine ⟨?_, hrest⟩
    rcases hfront with rfl | rfl | rfl <;> decide
  · have hrest : '|' ∉ (spanSign token).2 :=
      Partial.not_mem_of_read? hversion (by decide) (by decide)
    exact Operator.not_mem_of_spanSign (by decide) hrest

namespace Range

open Comparator

/-- The tokens of an interval are its comparators, or none is left where it has no end. -/
theorem exists_mapM_tokens_interval {lower upper : Option Version}
    (hlower : ∀ base ∈ lower, base.WellFormed) :
    ∃ comparators,
      (Normal.tokens (alternativeText (interval lower upper))).mapM Comparator.read =
          .ok comparators ∧
        ∀ v, testAll comparators v = testAll ((interval lower upper).map Comparator.reread) v := by
  by_cases hne : interval lower upper = []
  · refine ⟨[.any], by rw [hne]; rfl, fun v => ?_⟩
    rw [hne, testAll_any]
    simp [testAll]
  · have hwell : ∀ c ∈ interval lower upper, c.WellFormed ∧ c ≠ .any := fun c hc =>
      wellFormed_of_mem_interval hlower hc
    refine ⟨(interval lower upper).map Comparator.reread, ?_, fun v => rfl⟩
    rw [Normal.tokens, splitBlanks_alternativeText hne hwell, List.map_map]
    apply mapM_map_eq_ok
    intro c hc
    rw [Function.comp_apply, dropAtLeastZero_text (hwell c hc).1]
    exact read_text_reread (hwell c hc).1

section Shorthand

variable {token : Text} (hblank : ∀ c ∈ token, isBlank c = false) {shorthand : Shorthand}
  (hshorthand : Shorthand.read? token = some shorthand)

include hblank hshorthand

/-- A token that is a shorthand makes one alternative. -/
theorem alternativeTexts_of_shorthand : alternativeTexts token = [token] := by
  rw [alternativeTexts_eq_singleton (Shorthand.bar_not_mem hshorthand),
    trim_eq_self_of_no_blank hblank]

/-- A shorthand whose bounds cannot be held fails the range. -/
theorem read_of_bounds_eq_none (hbounds : shorthand.bounds? = none) :
    read token = .error (.invalidComparator token) := by
  have halternative : readAlternative token = .error (.invalidComparator token) := by
    rw [readAlternative_of_no_blank hblank, Normal.expandToken, hshorthand]
    simp only [hbounds]
    rfl
  rw [read_eq_of_singleton (alternativeTexts_of_shorthand hblank hshorthand), halternative]
  rfl

/-- A shorthand whose bounds are an interval is read as that interval. -/
theorem exists_read_of_interval {lower upper : Option Version}
    (hbounds : shorthand.bounds? = some (Bound.interval lower upper))
    (hlower : ∀ base ∈ lower, base.WellFormed) :
    ∃ range, read token = .ok range ∧
      ∀ v, range.test v = true ↔ v.IsWithin lower upper := by
  have hnormal : Normal.ofAlternative token = .ok (alternativeText (interval lower upper)) := by
    rw [ofAlternative_of_no_blank hblank, Normal.expandToken, hshorthand]
    simp only [hbounds, textOfList_interval]
  obtain ⟨comparators, hcomparators, haccepts⟩ := exists_mapM_tokens_interval hlower
  obtain ⟨simplified, hsimplified, hsame⟩ := exists_readAlternative_testAll hnormal hcomparators
  have hread : read token = .ok ⟨token, [simplified]⟩ := by
    rw [read_eq_of_singleton (alternativeTexts_of_shorthand hblank hshorthand), hsimplified]
    rfl
  refine ⟨_, hread, fun v => ?_⟩
  rw [← testAll_reread_interval_iff, ← haccepts, ← hsame]
  simp [Range.test]

/-- Reading a shorthand comes down to its bounds: it fails where they cannot be held, and else
it accepts what is within them. -/
theorem read_shorthand_iff {limit : Prop} {accepts : Version → Prop}
    (hbounds : limit ∧ shorthand.bounds? = none ∨
      ¬ limit ∧ ∃ lower upper, shorthand.bounds? = some (Bound.interval lower upper) ∧
        (∀ base ∈ lower, base.WellFormed) ∧
          ∀ v : Version, v.IsWithin lower upper ↔ accepts v) :
    (∀ error, read token = .error error ↔ error = .invalidComparator token ∧ limit) ∧
      (¬ limit → ∃ range, read token = .ok range ∧ ∀ v, range.test v = true ↔ accepts v) := by
  rcases hbounds with ⟨hlimit, hnone⟩ | ⟨hlimit, lower, upper, hsome, hlower, haccepts⟩
  · have hread := read_of_bounds_eq_none hblank hshorthand hnone
    refine ⟨fun error => ?_, fun hnot => absurd hlimit hnot⟩
    rw [hread, Except.error.injEq, eq_comm (b := error)]
    simp [hlimit]
  · obtain ⟨range, hread, htest⟩ := exists_read_of_interval hblank hshorthand hsome hlower
    refine ⟨fun error => ?_, fun _ => ⟨range, hread, fun v => (htest v).trans (haccepts v)⟩⟩
    simp [hread, hlimit]

end Shorthand

end Range

end SemanticVersions
