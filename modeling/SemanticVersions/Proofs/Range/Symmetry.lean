import SemanticVersions.Proofs.Range.Intersection
import SemanticVersions.Proofs.Range.Invariant

/-!
# Intersection from the other side

Intersection asks its left side first, but for comparisons the order does not
matter.  Only a comparator without condition tells the sides apart: from the
left it intersects everything, and from the right it refuses an equality with a
prerelease, which it does not admit.  In ranges such a comparator stands alone,
so the order of two ranges matters only if exactly one of them has no condition.
-/

namespace SemanticVersions

namespace Comparator

def equalsPrerelease : Comparator → Bool
  | bound .equal version => version.isPrerelease
  | _ => false

theorem intersects_any (c : Comparator) : c.intersects any = !c.equalsPrerelease := by
  cases c with
  | any => rfl
  | bound operator version =>
    cases operator with
    | equal =>
      rw [equal_intersects, testAll_singleton]
      simp [test, admits, equalsPrerelease]
    | _ => rfl

end Comparator

namespace Range

open Comparator

/-! ### Two ranges -/

theorem alternativesIntersect_comm {these those : List Comparator} (hthese : .any ∉ these)
    (hthose : .any ∉ those) :
    alternativesIntersect these those = alternativesIntersect those these := by
  have hpair : ∀ c ∈ these, ∀ d ∈ those, c.intersects d = d.intersects c := fun c hc d hd =>
    intersects_comm (fun hany => hthese (hany ▸ hc)) (fun hany => hthose (hany ▸ hd))
  rw [Bool.eq_iff_iff]
  simp only [alternativesIntersect, List.all_eq_true]
  constructor
  · intro hall d hd c hc
    rw [← hpair c hc d hd]
    exact hall c hc d hd
  · intro hall c hc d hd
    rw [hpair c hc d hd]
    exact hall d hd c hc

/-- Alternatives of bounds overlap in either order or in none. -/
theorem overlap_comm {these those : List Comparator} (hthese : .any ∉ these)
    (hthose : .any ∉ those) : overlap these those = overlap those these := by
  rw [overlap, overlap, alternativesIntersect_comm hthese hthose, Bool.and_left_comm]

section Pair

variable {a b : Range} (hb : Reduced b.alternatives) (hneB : b.alternatives ≠ [[.any]])

include hb hneB

theorem Reduced.any_not_mem {comparators : List Comparator}
    (hmem : comparators ∈ b.alternatives) : .any ∉ comparators :=
  fun hany => hneB (hb.eq_any_of_mem hmem hany)

/-- Ranges that are not without condition intersect in either order or in none. -/
theorem Reduced.intersects_comm (ha : Reduced a.alternatives)
    (hneA : a.alternatives ≠ [[.any]]) : a.intersects b = b.intersects a := by
  rw [Bool.eq_iff_iff, intersects_iff_overlap, intersects_iff_overlap]
  constructor
  · rintro ⟨these, hthese, those, hthose, hoverlap⟩
    refine ⟨those, hthose, these, hthese, ?_⟩
    rwa [overlap_comm (hb.any_not_mem hneB hthose) (ha.any_not_mem hneA hthese)]
  · rintro ⟨those, hthose, these, hthese, hoverlap⟩
    refine ⟨these, hthese, those, hthose, ?_⟩
    rwa [overlap_comm (ha.any_not_mem hneA hthese) (hb.any_not_mem hneB hthose)]

end Pair

/-! ### A range without condition -/

/-- Whether an alternative has an equality with a prerelease. -/
def NamesPrerelease (comparators : List Comparator) : Prop :=
  ∃ c ∈ comparators, c.equalsPrerelease = true

/-- Whether a range has satisfiable alternatives, all of them with an equality with a
prerelease. -/
def OnlyNamesPrereleases (range : Range) : Prop :=
  (∃ comparators ∈ range.alternatives, isSatisfiable comparators = true) ∧
    ∀ comparators ∈ range.alternatives, isSatisfiable comparators = true →
      NamesPrerelease comparators

instance : DecidablePred OnlyNamesPrereleases := fun range =>
  inferInstanceAs (Decidable
    ((∃ comparators ∈ range.alternatives, isSatisfiable comparators = true) ∧
      ∀ comparators ∈ range.alternatives, isSatisfiable comparators = true →
        ∃ c ∈ comparators, c.equalsPrerelease = true))

section Unconstrained

variable {a : Range} (ha : a.alternatives = [[.any]]) (b : Range)

include ha

/-- The range without condition intersects what has a satisfiable alternative. -/
theorem any_intersects_iff :
    a.intersects b = true ↔
      ∃ those ∈ b.alternatives, isSatisfiable those = true := by
  have hleft : ∀ those, overlap [.any] those = isSatisfiable those := by
    intro those
    simp [overlap, isSatisfiable, alternativesIntersect, Comparator.intersects]
  simp only [intersects_iff_overlap, ha, List.mem_singleton, exists_eq_left, hleft]

theorem intersects_any_iff :
    b.intersects a = true ↔
      ∃ those ∈ b.alternatives, isSatisfiable those = true ∧ ¬ NamesPrerelease those := by
  have hright : ∀ those, overlap those [.any] = true ↔
      isSatisfiable those = true ∧ ¬ NamesPrerelease those := by
    intro those
    simp [overlap, isSatisfiable, alternativesIntersect, Comparator.intersects_any,
      NamesPrerelease]
  simp only [intersects_iff_overlap, ha, List.mem_singleton, exists_eq_left, hright]

/-- Only such ranges intersect the one without condition in one order alone. -/
theorem onlyNamesPrereleases_iff :
    OnlyNamesPrereleases b ↔ a.intersects b = true ∧ b.intersects a = false := by
  rw [Bool.eq_false_iff, Ne, any_intersects_iff ha, intersects_any_iff ha, OnlyNamesPrereleases]
  apply and_congr_right
  intro _
  simp only [not_exists, not_and, not_not]

/-- From the left a range without condition intersects whatever it intersects from
the right. -/
theorem intersects_ne_iff :
    a.intersects b ≠ b.intersects a ↔ OnlyNamesPrereleases b := by
  have hweaker : b.intersects a = true → a.intersects b = true := by
    rw [any_intersects_iff ha, intersects_any_iff ha]
    rintro ⟨those, hmem, hsatisfiable, _⟩
    exact ⟨those, hmem, hsatisfiable⟩
  rw [onlyNamesPrereleases_iff ha]
  cases hright : b.intersects a <;> simp_all

end Unconstrained

/-- Intersection does not depend on the order of two ranges, unless exactly one of
them has no condition.  Then it depends on the order exactly if the other one has
satisfiable alternatives and each of these has an equality with a prerelease: from the
left the range without condition intersects the other one, from the right it does not. -/
theorem intersects_symmetric_unless_any {s t : Text} {a b : Range} (hs : read s = .ok a)
    (ht : read t = .ok b) :
    ((a.alternatives = [[.any]] ↔ b.alternatives = [[.any]]) →
        a.intersects b = b.intersects a) ∧
      (a.alternatives = [[.any]] → b.alternatives ≠ [[.any]] →
        (a.intersects b ≠ b.intersects a ↔ OnlyNamesPrereleases b) ∧
          (OnlyNamesPrereleases b → a.intersects b = true ∧ b.intersects a = false)) := by
  constructor
  · intro hboth
    by_cases ha : a.alternatives = [[.any]]
    · have hb := hboth.mp ha
      rw [intersects, intersects, ha, hb]
    · have hb : b.alternatives ≠ [[.any]] := fun hany => ha (hboth.mpr hany)
      exact (reduced_of_read ht).intersects_comm hb (reduced_of_read hs) ha
  · intro ha _
    exact ⟨intersects_ne_iff ha b, (onlyNamesPrereleases_iff ha b).mp⟩

/-- An equality with a prerelease beside an alternative that nothing satisfies. -/
theorem intersects_symmetric_unless_any_prerelease :
    ∃ a b, read "1.2.3 || *".toList = .ok a ∧
      read "1.2.3-pre || >2.0.0 <1.0.0".toList = .ok b ∧
        a.intersects b = true ∧ b.intersects a = false := by
  have hs : read "1.2.3 || *".toList = .ok ⟨"1.2.3 || *".toList, [[.any]]⟩ :=
    read_of_toOption (by decide +kernel)
  have ht : read "1.2.3-pre || >2.0.0 <1.0.0".toList =
      .ok ⟨"1.2.3-pre || >2.0.0 <1.0.0".toList,
        [[.bound .equal .samplePrerelease],
          [.bound .greater ⟨2, 0, 0, [], []⟩, .bound .less ⟨1, 0, 0, [], []⟩]]⟩ :=
    read_of_toOption (by decide +kernel)
  have honly : OnlyNamesPrereleases ⟨"1.2.3-pre || >2.0.0 <1.0.0".toList,
      [[.bound .equal .samplePrerelease],
        [.bound .greater ⟨2, 0, 0, [], []⟩, .bound .less ⟨1, 0, 0, [], []⟩]]⟩ := by
    decide
  obtain ⟨hleft, hright⟩ :=
    ((intersects_symmetric_unless_any hs ht).2 rfl (by decide)).2 honly
  exact ⟨_, _, hs, ht, hleft, hright⟩

end Range

end SemanticVersions
