import SemanticVersions.Proofs.Comparator.Interval
import SemanticVersions.Proofs.Range.Intersection

/-!
# Ranges that intersect without a common version

Intersection looks at two bounds at a time and only at their order.  For the
comparators of two alternatives this is enough, unless there is a gap between them:
then they are taken to overlap, although no version meets them all.  Left aside the
prerelease rule, gaps are the only such case.
-/

namespace SemanticVersions.Range

open Comparator

/-- Whether an equality names a version that meets all the comparators. -/
def NamesCommonVersion (comparators : List Comparator) : Prop :=
  ∃ a, .bound .equal a ∈ comparators ∧ ∀ c ∈ comparators, c.test a = true

/-- In a satisfiable alternative every two comparators touch. -/
theorem touch_of_isSatisfiable {comparators : List Comparator}
    (hwellFormed : ∀ c ∈ comparators, c.WellFormed)
    (hsatisfiable : isSatisfiable comparators = true) :
    ∀ c ∈ comparators, ∀ d ∈ comparators, Touch c d := by
  have hself : ∀ c ∈ comparators, Touch c c := fun c hc =>
    Touch.refl (hwellFormed c hc).hasSign_operator
  have hpairwise : comparators.Pairwise Touch := (isSatisfiable_iff.mp hsatisfiable).imp .inr
  exact hpairwise.forall_of_forall hself

/-! ### Two alternatives -/

section Pair

variable {these those : List Comparator} (hwellFormed : ∀ c ∈ these ++ those, c.WellFormed)

include hwellFormed

/-- In alternatives that overlap every two comparators touch. -/
theorem touch_of_overlap (hoverlap : overlap these those = true) :
    ∀ c ∈ these ++ those, ∀ d ∈ these ++ those, Touch c d := by
  obtain ⟨hthese, hthose, hacross⟩ := overlap_eq_true_iff.mp hoverlap
  rw [List.forall_mem_append] at hwellFormed
  intro c hc d hd
  rcases List.mem_append.mp hc with hc | hc <;> rcases List.mem_append.mp hd with hd | hd
  · exact touch_of_isSatisfiable hwellFormed.1 hthese c hc d hd
  · exact .inl (hacross c hc d hd)
  · exact .inr (hacross d hd c hc)
  · exact touch_of_isSatisfiable hwellFormed.2 hthose c hc d hd

/-- Alternatives with a common version overlap if they have no equality. -/
theorem overlap_of_test {v : Version} (htest : ∀ c ∈ these ++ those, c.test v = true)
    (hequal : ∀ a, .bound .equal a ∉ these ++ those) : overlap these those = true := by
  have hintersects : ∀ c ∈ these ++ those, ∀ d ∈ these ++ those, c.intersects d = true := by
    intro c hc d hd
    refine intersects_of_test (hwellFormed c hc) (hwellFormed d hd) ?_ ?_ (htest c hc)
      (htest d hd)
    · rintro a rfl
      exact hequal a hc
    · rintro a rfl
      exact hequal a hd
  have hsatisfiable : ∀ {comparators : List Comparator}, comparators ⊆ these ++ those →
      isSatisfiable comparators = true := by
    intro comparators hsubset
    apply isSatisfiable_iff.mpr
    apply List.pairwise_of_forall_mem_list
    intro c hc d hd
    exact hintersects d (hsubset hd) c (hsubset hc)
  exact overlap_eq_true_iff.mpr
    ⟨hsatisfiable (List.subset_append_left _ _), hsatisfiable (List.subset_append_right _ _),
      fun c hc d hd => hintersects c (by simp [hc]) d (by simp [hd])⟩

/-- Alternatives have a common version exactly if an equality names one, or they overlap
and there is no gap. -/
theorem hasCommonVersion_append_iff (hne : these ++ those ≠ []) :
    HasCommonVersion (these ++ those) ↔
      NamesCommonVersion (these ++ those) ∨
        (overlap these those = true ∧ ¬ Gap (these ++ those)) := by
  constructor
  · rintro ⟨v, _, htest⟩
    by_cases hequal : ∃ a, .bound .equal a ∈ these ++ those
    · obtain ⟨a, ha⟩ := hequal
      refine .inl ⟨a, ha, ?_⟩
      rw [eq_withBuild_of_test (htest _ ha)]
      exact htest
    · have hoverlap := overlap_of_test hwellFormed htest (not_exists.mp hequal)
      exact .inr ⟨hoverlap, not_gap_of_test hwellFormed htest⟩
  · rintro (⟨a, ha, htest⟩ | ⟨hoverlap, hgap⟩)
    · exact ⟨a, (hwellFormed _ ha).2, htest⟩
    · have htouch := touch_of_overlap hwellFormed hoverlap
      exact (hasCommonVersion_iff hwellFormed hne htouch).mpr hgap

end Pair

/-! ### Ranges that were read -/

/-- Two alternatives that overlap have a common version exactly if there is no gap between
their comparators.  So two ranges have alternatives with a common version exactly if some
of them overlap without a gap, or an equality names one; and a range that no version can
satisfy intersects another one exactly through a gap within an alternative. -/
theorem intersection_met_unless_gap {s t : Text} {a b : Range} (hs : read s = .ok a)
    (ht : read t = .ok b) :
    Selection.intersects s t = a.intersects b ∧
      (a.intersects b = true ↔
        ∃ these ∈ a.alternatives, ∃ those ∈ b.alternatives, overlap these those = true) ∧
      (∀ these ∈ a.alternatives, ∀ those ∈ b.alternatives, overlap these those = true →
        (HasCommonVersion (these ++ those) ↔ ¬ Gap (these ++ those))) ∧
      ((∃ these ∈ a.alternatives, ∃ those ∈ b.alternatives, HasCommonVersion (these ++ those)) ↔
        ∃ these ∈ a.alternatives, ∃ those ∈ b.alternatives,
          NamesCommonVersion (these ++ those) ∨
            (overlap these those = true ∧ ¬ Gap (these ++ those))) ∧
      ((∀ these ∈ a.alternatives, ¬ HasCommonVersion these) →
        (a.intersects b = true ↔
          ∃ these ∈ a.alternatives, Gap these ∧
            ∃ those ∈ b.alternatives, overlap these those = true)) := by
  have ha := (reduced_of_read hs).simplified
  have hb := (reduced_of_read ht).simplified
  have hwellFormed : ∀ these ∈ a.alternatives, ∀ those ∈ b.alternatives,
      ∀ c ∈ these ++ those, c.WellFormed := fun these hthese those hthose =>
    List.forall_mem_append.mpr ⟨(ha these hthese).wellFormed, (hb those hthose).wellFormed⟩
  have hne : ∀ these ∈ a.alternatives, ∀ those : List Comparator, these ++ those ≠ [] :=
    fun these hthese those => List.append_ne_nil_of_left_ne_nil (ha these hthese).nonempty those
  refine ⟨selection_intersects_of_read hs ht, intersects_iff_overlap, ?_, ?_, ?_⟩
  · intro these hthese those hthose hoverlap
    have hall := hwellFormed these hthese those hthose
    exact hasCommonVersion_iff hall (hne these hthese those) (touch_of_overlap hall hoverlap)
  · exact exists_congr fun these => and_congr_right fun hthese =>
      exists_congr fun those => and_congr_right fun hthose =>
        hasCommonVersion_append_iff (hwellFormed these hthese those hthose)
          (hne these hthese those)
  · intro hnone
    have hgap : ∀ these ∈ a.alternatives, isSatisfiable these = true → Gap these := by
      intro these hthese hsatisfiable
      have hthese' := ha these hthese
      have hcommon := hasCommonVersion_iff hthese'.wellFormed hthese'.nonempty
        (touch_of_isSatisfiable hthese'.wellFormed hsatisfiable)
      exact Decidable.of_not_not fun hgap => hnone these hthese (hcommon.mpr hgap)
    rw [intersects_iff_overlap]
    constructor
    · rintro ⟨these, hthese, those, hthose, hoverlap⟩
      exact ⟨these, hthese, hgap these hthese (overlap_eq_true_iff.mp hoverlap).1,
        those, hthose, hoverlap⟩
    · rintro ⟨these, hthese, _, those, hthose, hoverlap⟩
      exact ⟨these, hthese, those, hthose, hoverlap⟩

/-- The version `1.2.4-0` lies next to `1.2.3` and is included above. -/
theorem intersection_met_unless_gap_neighbours :
    ∃ a b, read ">1.2.3 <1.2.4-0 || >1.2.3 <=1.2.4-0".toList = .ok a ∧
      read "<1.2.4-0.0 || >=2.0.0".toList = .ok b ∧
        ∃ these ∈ a.alternatives, ∃ those ∈ b.alternatives,
          HasCommonVersion (these ++ those) := by
  have hs : read ">1.2.3 <1.2.4-0 || >1.2.3 <=1.2.4-0".toList =
      .ok ⟨">1.2.3 <1.2.4-0 || >1.2.3 <=1.2.4-0".toList,
        [[.bound .greater ⟨1, 2, 3, [], []⟩,
            .bound .less ⟨1, 2, 4, [.numeric 0], []⟩],
          [.bound .greater ⟨1, 2, 3, [], []⟩,
            .bound .lessEqual ⟨1, 2, 4, [.numeric 0], []⟩]]⟩ :=
    read_of_toOption (by decide +kernel)
  have ht : read "<1.2.4-0.0 || >=2.0.0".toList =
      .ok ⟨"<1.2.4-0.0 || >=2.0.0".toList,
        [[.bound .less ⟨1, 2, 4, [.numeric 0, .numeric 0], []⟩],
          [.bound .greaterEqual ⟨2, 0, 0, [], []⟩]]⟩ :=
    read_of_toOption (by decide +kernel)
  refine ⟨_, _, hs, ht, (intersection_met_unless_gap hs ht).2.2.2.1.mpr ?_⟩
  exact ⟨_, List.mem_cons_of_mem _ List.mem_cons_self, _, List.mem_cons_self,
    .inr (by decide)⟩

/-- The comparator that no version meets is taken to intersect everything. -/
theorem null_set_intersects_any :
    ∃ a b, read "<0.0.0-0".toList = .ok a ∧ read "*".toList = .ok b ∧
      Selection.intersects "<0.0.0-0".toList "*".toList = true ∧ a.intersects b = true ∧
        ∀ these ∈ a.alternatives, ∀ those ∈ b.alternatives, ∀ v : Version,
          ∃ c ∈ these ++ those, c.test v = false := by
  have hs : read "<0.0.0-0".toList = .ok ⟨"<0.0.0-0".toList, [[.nullSet]]⟩ :=
    read_of_toOption (by decide +kernel)
  have ht : read "*".toList = .ok any := read_of_toOption (by decide +kernel)
  refine ⟨_, _, hs, ht, by decide +kernel, by decide, ?_⟩
  intro these hthese those _ v
  obtain rfl : these = [.nullSet] := List.mem_singleton.mp hthese
  exact ⟨.nullSet, by simp, test_of_isNullSet rfl v⟩

end SemanticVersions.Range
