import Mathlib.Data.List.Pairwise
import SemanticVersions.Proofs.Comparator.Intersection
import SemanticVersions.Proofs.Range.Shape
import SemanticVersions.Selection

/-!
# Ranges that share a version

Intersection looks at two comparators at a time.  For the comparators of two
alternatives that accept one version this is enough, with a single exception:
where an equality names an accepted prerelease and some other comparator does
not admit it, the two alternatives are taken to be apart.  So a shared release
is always found, and a shared prerelease is found in each pair of alternatives
without such a clash.
-/

namespace SemanticVersions.Range

open Comparator

/-- Whether two alternatives are satisfiable and their comparators intersect. -/
def overlap (these those : List Comparator) : Bool :=
  isSatisfiable these && (isSatisfiable those && alternativesIntersect these those)

/-- Whether an equality names the version, a prerelease, and some comparator does
not admit it. -/
def Clash (v : Version) (these those : List Comparator) : Prop :=
  v.isPrerelease = true ∧ (∃ c ∈ these ++ those, c.operator = .equal) ∧
    ∃ d ∈ these ++ those, admits v d = false

instance (v : Version) (these those : List Comparator) : Decidable (Clash v these those) :=
  inferInstanceAs (Decidable (v.isPrerelease = true ∧
    (∃ c ∈ these ++ those, c.operator = .equal) ∧ ∃ d ∈ these ++ those, admits v d = false))

/-- Two ranges intersect if an alternative of one overlaps one of the other. -/
theorem intersects_iff_overlap {a b : Range} :
    a.intersects b = true ↔
      ∃ these ∈ a.alternatives, ∃ those ∈ b.alternatives, overlap these those = true := by
  simp only [intersects, overlap, List.any_eq_true, Bool.and_eq_true]
  grind

theorem overlap_eq_true_iff {these those : List Comparator} :
    overlap these those = true ↔
      isSatisfiable these = true ∧ isSatisfiable those = true ∧
        ∀ c ∈ these, ∀ d ∈ those, c.intersects d = true := by
  simp only [overlap, alternativesIntersect, Bool.and_eq_true, List.all_eq_true]

/-- An alternative counts as satisfiable if each comparator intersects those before it. -/
theorem isSatisfiable_iff {comparators : List Comparator} :
    isSatisfiable comparators = true ↔
      comparators.Pairwise fun c d => d.intersects c = true := by
  induction comparators with
  | nil => simp [isSatisfiable]
  | cons c others ih =>
    rw [isSatisfiable, Bool.and_eq_true, ih, List.pairwise_cons, List.all_eq_true]

/-! ### Comparators that one version meets -/

section Met

variable {v : Version} {comparators : List Comparator}

/-- An alternative without condition accepts no prerelease. -/
theorem met_of_testAll (hsimplified : Simplified comparators)
    (haccept : testAll comparators v = true) : ∀ c ∈ comparators, Met v c := by
  simp only [testAll, Bool.and_eq_true, List.all_eq_true] at haccept
  intro c hc
  refine ⟨hsimplified.wellFormed c hc, haccept.1 c hc, ?_⟩
  rintro hprerelease rfl
  have hadmitted := haccept.2
  rw [hsimplified.any_alone hc, hprerelease] at hadmitted
  cases hadmitted

theorem isSatisfiable_iff_pairwise (hmet : ∀ c ∈ comparators, Met v c) :
    isSatisfiable comparators = true ↔ comparators.Pairwise (Compatible v) := by
  rw [isSatisfiable_iff]
  apply List.Pairwise.iff_of_mem
  intro c d hc hd
  rw [intersects_iff (hmet d hd) (hmet c hc)]
  exact ⟨Compatible.symm, Compatible.symm⟩

/-- Met comparators that are pairwise compatible are so in either order, and with themselves. -/
theorem pairwise_compatible_iff (hmet : ∀ c ∈ comparators, Met v c) :
    comparators.Pairwise (Compatible v) ↔
      ∀ c ∈ comparators, ∀ d ∈ comparators, Compatible v c d := by
  constructor
  · exact List.Pairwise.forall_of_forall fun c hc => (hmet c hc).compatible_self
  · exact List.pairwise_of_forall_mem_list

end Met

section Pair

variable {v : Version} {these those : List Comparator}

/-- Comparators do not clash exactly if they are compatible with each other. -/
theorem clash_iff :
    ¬ Clash v these those ↔
      ∀ c ∈ these ++ those, ∀ d ∈ these ++ those, Compatible v c d := by
  constructor
  · intro hnone c hc d hd hprerelease
    have hadmits : ∀ e ∈ these ++ those, e.operator = .equal →
        ∀ f ∈ these ++ those, admits v f = true := by
      intro e he hequal f hf
      cases hshut : admits v f with
      | true => rfl
      | false => exact absurd ⟨hprerelease, ⟨e, he, hequal⟩, ⟨f, hf, hshut⟩⟩ hnone
    exact ⟨fun hequal => hadmits c hc hequal d hd, fun hequal => hadmits d hd hequal c hc⟩
  · rintro hall ⟨hprerelease, ⟨c, hc, hequal⟩, ⟨d, hd, hshut⟩⟩
    have hadmits := (hall c hc d hd hprerelease).1 hequal
    rw [hshut] at hadmits
    cases hadmits

/-- Two alternatives that accept one version overlap unless they clash over it. -/
theorem overlap_iff (hthese : Simplified these) (hthose : Simplified those)
    (hleft : testAll these v = true) (hright : testAll those v = true) :
    overlap these those = true ↔ ¬ Clash v these those := by
  have hmetThese := met_of_testAll hthese hleft
  have hmetThose := met_of_testAll hthose hright
  -- Satisfiability of the two sides and intersection across them look at all pairs of
  -- the joined list, and compatibility does not depend on the order of a pair.
  have hmet : ∀ c ∈ these ++ those, Met v c :=
    List.forall_mem_append.mpr ⟨hmetThese, hmetThose⟩
  have hacross : ∀ c ∈ these, ∀ d ∈ those, (c.intersects d = true ↔ Compatible v c d) :=
    fun c hc d hd => intersects_iff (hmetThese c hc) (hmetThose d hd)
  calc overlap these those = true
      ↔ these.Pairwise (Compatible v) ∧ those.Pairwise (Compatible v) ∧
          ∀ c ∈ these, ∀ d ∈ those, Compatible v c d := by
        rw [overlap_eq_true_iff, isSatisfiable_iff_pairwise hmetThese,
          isSatisfiable_iff_pairwise hmetThose]
        simp +contextual only [hacross]
    _ ↔ (these ++ those).Pairwise (Compatible v) := List.pairwise_append.symm
    _ ↔ ∀ c ∈ these ++ those, ∀ d ∈ these ++ those, Compatible v c d :=
        pairwise_compatible_iff hmet
    _ ↔ ¬ Clash v these those := clash_iff.symm

end Pair

/-! ### Ranges that were read -/

theorem not_clash_of_release {v : Version} (hrelease : v.isPrerelease = false)
    (these those : List Comparator) : ¬ Clash v these those := by
  rintro ⟨hprerelease, _⟩
  rw [hrelease] at hprerelease
  cases hprerelease

theorem selection_intersects_of_read {s t : Text} {a b : Range} (hs : read s = .ok a)
    (ht : read t = .ok b) : Selection.intersects s t = a.intersects b := by
  rw [Selection.intersects, hs, ht]

/-- Where two ranges accept one version, a pair of alternatives that both accept it
overlaps unless it clashes, and any other pair may overlap besides.  A release
that both accept is therefore always found. -/
theorem shared_version_intersects_iff {s t : Text} {a b : Range} (hs : read s = .ok a)
    (ht : read t = .ok b) {v : Version} (ha : a.test v = true) (hb : b.test v = true) :
    Selection.intersects s t = a.intersects b ∧
      (a.intersects b = true ↔
        ∃ these ∈ a.alternatives, ∃ those ∈ b.alternatives,
          if testAll these v = true ∧ testAll those v = true then ¬ Clash v these those
          else overlap these those = true) ∧
      (v.isPrerelease = false → a.intersects b = true) := by
  have hpair : ∀ these ∈ a.alternatives, ∀ those ∈ b.alternatives,
      (overlap these those = true ↔
        if testAll these v = true ∧ testAll those v = true then ¬ Clash v these those
        else overlap these those = true) := by
    intro these hthese those hthose
    split
    · next haccept =>
      exact overlap_iff ((reduced_of_read hs).simplified these hthese)
        ((reduced_of_read ht).simplified those hthose) haccept.1 haccept.2
    · rfl
  have hiff : a.intersects b = true ↔
      ∃ these ∈ a.alternatives, ∃ those ∈ b.alternatives,
        if testAll these v = true ∧ testAll those v = true then ¬ Clash v these those
        else overlap these those = true := by
    rw [intersects_iff_overlap]
    constructor
    · rintro ⟨these, hthese, those, hthose, hoverlap⟩
      exact ⟨these, hthese, those, hthose, (hpair these hthese those hthose).mp hoverlap⟩
    · rintro ⟨these, hthese, those, hthose, hclause⟩
      exact ⟨these, hthese, those, hthose, (hpair these hthese those hthose).mpr hclause⟩
  refine ⟨selection_intersects_of_read hs ht, hiff, ?_⟩
  intro hrelease
  obtain ⟨these, hthese, hleft⟩ := test_iff.mp ha
  obtain ⟨those, hthose, hright⟩ := test_iff.mp hb
  apply hiff.mpr
  refine ⟨these, hthese, those, hthose, ?_⟩
  rw [if_pos ⟨hleft, hright⟩]
  exact not_clash_of_release hrelease these those

theorem shared_version_intersects_iff_sample :
    Selection.intersects "1.2.3-pre || 2.x".toList ">=1.2.3-0 <=1.2.3-z".toList = true := by
  have hs : read "1.2.3-pre || 2.x".toList =
      .ok ⟨"1.2.3-pre || 2.x".toList,
        [[.bound .equal .samplePrerelease],
          [.bound .greaterEqual ⟨2, 0, 0, [], []⟩,
            .bound .less ⟨3, 0, 0, [.numeric 0], []⟩]]⟩ :=
    read_of_toOption (by decide +kernel)
  have ht : read ">=1.2.3-0 <=1.2.3-z".toList =
      .ok ⟨">=1.2.3-0 <=1.2.3-z".toList,
        [[.bound .greaterEqual ⟨1, 2, 3, [.numeric 0], []⟩,
          .bound .lessEqual ⟨1, 2, 3, [.textual ['z']], []⟩]]⟩ :=
    read_of_toOption (by decide +kernel)
  have hshared := shared_version_intersects_iff hs ht
    (show Range.test _ .samplePrerelease = true by decide) (by decide)
  rw [hshared.1]
  apply hshared.2.1.mpr
  refine ⟨[.bound .equal .samplePrerelease], by simp, _, List.mem_singleton.mpr rfl, ?_⟩
  decide

/-- An equality with a prerelease beside a bound that does not admit it: the range
accepts the prerelease and yet does not intersect itself. -/
theorem clash_hides_prerelease :
    ∃ range, read "1.2.3-pre >=1.0.0".toList = .ok range ∧
      range.test .samplePrerelease = true ∧ range.intersects range = false ∧
        Selection.intersects "1.2.3-pre >=1.0.0".toList "1.2.3-pre >=1.0.0".toList = false :=
  ⟨⟨"1.2.3-pre >=1.0.0".toList,
      [[.bound .equal .samplePrerelease, .bound .greaterEqual ⟨1, 0, 0, [], []⟩]]⟩,
    read_of_toOption (by decide +kernel), by decide, by decide,
    by decide +kernel⟩

end SemanticVersions.Range
