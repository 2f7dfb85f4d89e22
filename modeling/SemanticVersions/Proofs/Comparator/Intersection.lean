import SemanticVersions.Comparator
import SemanticVersions.Proofs.Comparator.Format
import SemanticVersions.Proofs.Version.Precedence

/-!
# Comparators that share a version

Two bounds that one version meets always intersect.  An equality is tested
against the other comparator alone, and there the prerelease rule does not see
the rest of the alternative: an equality with a prerelease intersects only
those comparators that admit the prerelease themselves.  Which of two comparisons
is asked first does not matter.
-/

namespace SemanticVersions

open Std

/-! ### Bounds on both sides of a version -/

namespace Operator

theorem direction_of_hasSign {operator : Operator} (hsign : operator.hasSign = true)
    (hequal : operator ≠ .equal) :
    (operator.isLower = true ∧ operator.isUpper = false) ∨
      (operator.isLower = false ∧ operator.isUpper = true) := by
  cases operator <;> simp_all [hasSign, isLower, isUpper]

/-- What satisfies a lower bound is at it or behind it, and behind it if the bound is exclusive. -/
theorem lower_holds {operator : Operator} (hlower : operator.isLower = true) {v a : Version}
    (hholds : operator.holds v a = true) :
    (compare a v).isLE = true ∧ (operator.isInclusive = false → compare a v = .lt) := by
  have hswap : compare a v = (compare v a).swap := OrientedCmp.eq_swap
  rw [hswap]
  cases operator with
  | greater => simp_all [holds]
  | greaterEqual => simpa [holds, isInclusive] using hholds
  | _ => cases hlower

/-- What satisfies an upper bound is at it or before it, and before it if the bound is exclusive. -/
theorem upper_holds {operator : Operator} (hupper : operator.isUpper = true) {v b : Version}
    (hholds : operator.holds v b = true) :
    (compare v b).isLE = true ∧ (operator.isInclusive = false → compare v b = .lt) := by
  cases operator with
  | less => simp_all [holds]
  | lessEqual => simpa [holds, isInclusive] using hholds
  | _ => cases hupper

/-- A version between two bounds puts the lower one first, unless both are inclusive
and of one precedence. -/
theorem compare_of_between {lower upper : Operator} {a b v : Version}
    (hlower : lower.isLower = true) (hupper : upper.isUpper = true)
    (hleft : lower.holds v a = true) (hright : upper.holds v b = true) :
    compare a b = .lt ∨
      (compare a b = .eq ∧ lower.isInclusive = true ∧ upper.isInclusive = true) := by
  have hfirst := lower_holds hlower hleft
  have hsecond := upper_holds hupper hright
  have hle : (compare a b).isLE = true := TransCmp.isLE_trans hfirst.1 hsecond.1
  by_cases hless : compare a b = .lt
  · exact .inl hless
  · right
    refine ⟨?_, ?_, ?_⟩
    · cases hcompare : compare a b with
      | lt => exact absurd hcompare hless
      | eq => rfl
      | gt => simp [hcompare] at hle
    · cases hinclusive : lower.isInclusive with
      | true => rfl
      | false =>
        have hstrict := hfirst.2 hinclusive
        exact absurd (TransCmp.lt_of_lt_of_isLE hstrict hsecond.1) hless
    · cases hinclusive : upper.isInclusive with
      | true => rfl
      | false =>
        have hstrict := hsecond.2 hinclusive
        exact absurd (TransCmp.lt_of_isLE_of_lt hfirst.1 hstrict) hless

end Operator

namespace Comparator

theorem boundsIntersect_comm (operatorA operatorB : Operator) (a b : Version) :
    boundsIntersect operatorA a operatorB b = boundsIntersect operatorB b operatorA a := by
  have hswap : compare b a = (compare a b).swap := OrientedCmp.eq_swap
  have htext : (b.text == a.text) = (a.text == b.text) := Bool.beq_comm
  rw [boundsIntersect, boundsIntersect, hswap, htext, Ordering.isLT_swap, Ordering.isGT_swap]
  grind

/-- Bounds of two directions leave a version between them if the lower one comes first, or
both include one common version. -/
theorem boundsIntersect_opposite_iff {lower upper : Operator} {a b : Version}
    (hlower : lower.isLower = true) (hupper : upper.isUpper = true) (ha : a.WellFormed)
    (hb : b.WellFormed) :
    boundsIntersect lower a upper b = true ↔
      compare a b = .lt ∨
        (compare a b = .eq ∧ lower.isInclusive = true ∧ upper.isInclusive = true) := by
  have hnotUpper : lower.isUpper = false := by cases lower <;> first | rfl | cases hlower
  have hnotLower : upper.isLower = false := by cases upper <;> first | rfl | cases hupper
  simp only [boundsIntersect, hlower, hupper, hnotUpper, hnotLower, Bool.or_eq_true,
    Bool.and_eq_true, beq_iff_eq, Version.text_eq_iff ha hb, Ordering.isLT_iff_eq_lt]
  grind

/-- Bounds that one version satisfies intersect. -/
theorem boundsIntersect_of_holds {operatorA operatorB : Operator} {a b v : Version}
    (hsignA : operatorA.hasSign = true) (hequalA : operatorA ≠ .equal) (ha : a.WellFormed)
    (hsignB : operatorB.hasSign = true) (hequalB : operatorB ≠ .equal) (hb : b.WellFormed)
    (hleft : operatorA.holds v a = true) (hright : operatorB.holds v b = true) :
    boundsIntersect operatorA a operatorB b = true := by
  cases Operator.direction_of_hasSign hsignA hequalA with
  | inl hlowerA =>
    cases Operator.direction_of_hasSign hsignB hequalB with
    | inl hlowerB => simp [boundsIntersect, hlowerA, hlowerB]
    | inr hupperB =>
      rw [boundsIntersect_opposite_iff hlowerA.1 hupperB.2 ha hb]
      exact Operator.compare_of_between hlowerA.1 hupperB.2 hleft hright
  | inr hupperA =>
    cases Operator.direction_of_hasSign hsignB hequalB with
    | inl hlowerB =>
      rw [boundsIntersect_comm, boundsIntersect_opposite_iff hlowerB.1 hupperA.2 hb ha]
      exact Operator.compare_of_between hlowerB.1 hupperA.2 hright hleft
    | inr hupperB => simp [boundsIntersect, hupperA, hupperB]

/-- A comparator that nothing satisfies is met by no version. -/
theorem test_of_isNullSet {c : Comparator} (hnull : c.isNullSet = true) (v : Version) :
    c.test v = false := by
  obtain ⟨build, rfl⟩ := isNullSet_iff.mp hnull
  apply Bool.eq_false_iff.mpr
  intro hless
  exact Version.compare_least_ne_lt v build (Ordering.isLT_iff_eq_lt.mp hless)

/-! ### Equalities and bounds -/

/-- An equality intersects a comparator if the comparator alone accepts its version. -/
theorem equal_intersects (a : Version) (d : Comparator) :
    (bound .equal a).intersects d = testAll [d] a := rfl

theorem intersects_equal {operatorA : Operator} (hequalA : operatorA ≠ .equal) (a b : Version) :
    (bound operatorA a).intersects (bound .equal b) = testAll [bound operatorA a] b := by
  cases operatorA <;> simp_all [intersects]

theorem intersects_bounds {operatorA operatorB : Operator} (hequalA : operatorA ≠ .equal)
    (hequalB : operatorB ≠ .equal) (a b : Version) :
    (bound operatorA a).intersects (bound operatorB b) =
      boundsIntersect operatorA a operatorB b := by
  cases operatorA <;> cases operatorB <;> simp_all [intersects]

/-- Bounds of two directions intersect if the lower one comes first, or both include one common
version. -/
theorem intersects_opposite_iff {lower upper : Operator} {a b : Version}
    (hlower : lower.isLower = true) (hupper : upper.isUpper = true) (ha : a.WellFormed)
    (hb : b.WellFormed) :
    (bound lower a).intersects (bound upper b) = true ↔
      compare a b = .lt ∨
        (compare a b = .eq ∧ lower.isInclusive = true ∧ upper.isInclusive = true) := by
  have hequalA : lower ≠ .equal := by
    rintro rfl
    cases hlower
  have hequalB : upper ≠ .equal := by
    rintro rfl
    cases hupper
  rw [intersects_bounds hequalA hequalB]
  exact boundsIntersect_opposite_iff hlower hupper ha hb

theorem bound_intersects_any {operatorA : Operator} (hequalA : operatorA ≠ .equal) (a : Version) :
    (bound operatorA a).intersects any = true := by
  cases operatorA <;> simp_all [intersects]

/-- Comparators that one version meets intersect if neither is an equality. -/
theorem intersects_of_test {v : Version} {c d : Comparator} (hc : c.WellFormed)
    (hd : d.WellFormed) (hequalC : ∀ a, c ≠ bound .equal a) (hequalD : ∀ b, d ≠ bound .equal b)
    (hleft : c.test v = true) (hright : d.test v = true) : c.intersects d = true := by
  cases c with
  | any => rfl
  | bound operatorA a =>
    have hequalA : operatorA ≠ .equal := fun hequal => hequalC a (hequal ▸ rfl)
    cases d with
    | any => exact bound_intersects_any hequalA a
    | bound operatorB b =>
      have hequalB : operatorB ≠ .equal := fun hequal => hequalD b (hequal ▸ rfl)
      rw [intersects_bounds hequalA hequalB]
      exact boundsIntersect_of_holds hc.1 hequalA hc.2 hd.1 hequalB hd.2 hleft hright

theorem testAll_singleton (c : Comparator) (v : Version) :
    testAll [c] v = (c.test v && (!v.isPrerelease || admits v c)) := by
  simp [testAll]

/-- An equality that a version meets compares with that version, up to its build. -/
theorem eq_withBuild_of_test {a v : Version} (htest : (bound .equal a).test v = true) :
    a = { v with build := a.build } := by
  apply Version.compare_eq_iff.mp
  apply OrientedCmp.eq_symm
  simpa [test, Operator.holds] using htest

theorem testAll_withBuild (comparators : List Comparator) (v : Version) (build : List Text) :
    testAll comparators { v with build := build } = testAll comparators v := rfl

theorem testAll_of_equal {a v : Version} (hequal : (bound .equal a).test v = true)
    {c : Comparator} (hc : c.test v = true) :
    testAll [c] a = (!v.isPrerelease || admits v c) := by
  rw [eq_withBuild_of_test hequal, testAll_withBuild, testAll_singleton, hc, Bool.true_and]

theorem admits_of_equal {a v : Version} (hequal : (bound .equal a).test v = true)
    (hprerelease : v.isPrerelease = true) : admits v (bound .equal a) = true := by
  have hself : v.sameRelease v = true := by
    rw [Version.sameRelease_iff]
    exact ReflCmp.compare_self
  rw [eq_withBuild_of_test hequal]
  change (v.isPrerelease && v.sameRelease v) = true
  rw [hprerelease, hself]
  rfl

/-! ### Comparators that a version meets -/

/-- What holds of the comparators of an alternative that accepts a version. -/
structure Met (v : Version) (c : Comparator) : Prop where
  wellFormed : c.WellFormed
  test : c.test v = true
  ne_any : v.isPrerelease = true → c ≠ any

/-- Whether neither comparator is an equality that the other one shuts out. -/
def Compatible (v : Version) (c d : Comparator) : Prop :=
  v.isPrerelease = true →
    (c.operator = .equal → admits v d = true) ∧ (d.operator = .equal → admits v c = true)

theorem Compatible.symm {v : Version} {c d : Comparator} (hcompatible : Compatible v c d) :
    Compatible v d c :=
  fun hprerelease => (hcompatible hprerelease).symm

instance (v : Version) : Symm (Compatible v) :=
  ⟨fun _ _ => Compatible.symm⟩

theorem Met.compatible_self {v : Version} {c : Comparator} (hc : Met v c) : Compatible v c c := by
  intro hprerelease
  have hadmits : c.operator = .equal → admits v c = true := by
    intro hequal
    cases c with
    | any => exact absurd rfl (hc.ne_any hprerelease)
    | bound operator version =>
      obtain rfl : operator = .equal := hequal
      exact admits_of_equal hc.test hprerelease
  exact ⟨hadmits, hadmits⟩

/-- An equality that a version meets intersects another met comparator exactly if it is not shut
out. -/
theorem intersects_equal_left {v a : Version} {d : Comparator} (ha : Met v (bound .equal a))
    (hd : Met v d) : (bound .equal a).intersects d = true ↔ Compatible v (bound .equal a) d := by
  have hadmits := admits_of_equal ha.test
  rw [equal_intersects, testAll_of_equal ha.test hd.test, Compatible]
  cases hprerelease : v.isPrerelease with
  | false => simp
  | true => simp [operator, hadmits hprerelease]

theorem intersects_equal_right {v b : Version} {operatorA : Operator} {a : Version}
    (ha : Met v (bound operatorA a)) (hequal : operatorA ≠ .equal)
    (hb : Met v (bound .equal b)) :
    (bound operatorA a).intersects (bound .equal b) = true ↔
      Compatible v (bound operatorA a) (bound .equal b) := by
  rw [intersects_equal hequal, testAll_of_equal hb.test ha.test, Compatible]
  cases hprerelease : v.isPrerelease with
  | false => simp
  | true => simp [operator, hequal]

/-- Two comparators that one version meets intersect exactly if they are compatible. -/
theorem intersects_iff {v : Version} {c d : Comparator} (hc : Met v c) (hd : Met v d) :
    c.intersects d = true ↔ Compatible v c d := by
  cases c with
  | any =>
    have hrelease : Compatible v any d := fun hprerelease => absurd rfl (hc.ne_any hprerelease)
    simp [intersects, hrelease]
  | bound operatorA a =>
    by_cases hequalA : operatorA = .equal
    · subst hequalA
      exact intersects_equal_left hc hd
    · cases d with
      | any =>
        have hrelease : Compatible v (bound operatorA a) any := fun hprerelease =>
          absurd rfl (hd.ne_any hprerelease)
        simp [bound_intersects_any hequalA, hrelease]
      | bound operatorB b =>
        by_cases hequalB : operatorB = .equal
        · subst hequalB
          exact intersects_equal_right hc hequalA hd
        · have hintersects : (bound operatorA a).intersects (bound operatorB b) = true :=
            intersects_of_test hc.wellFormed hd.wellFormed (by simp [hequalA])
              (by simp [hequalB]) hc.test hd.test
          rw [hintersects]
          simp [Compatible, operator, hequalA, hequalB]

/-! ### The order of two comparisons -/

/-- Two equalities intersect if their versions have one precedence, and then neither
version is shut out by the other. -/
theorem testAll_equal_comm (a b : Version) :
    testAll [bound .equal b] a = testAll [bound .equal a] b := by
  have hiff : ∀ {u w : Version}, (bound .equal w).test u = true ↔ compare u w = .eq :=
    Ordering.isEq_iff_eq_eq
  by_cases hsame : compare a b = .eq
  · rw [Version.compare_eq_iff.mp hsame]
    rfl
  · have hleft : (bound .equal b).test a = false :=
      Bool.eq_false_iff.mpr fun htest => hsame (hiff.mp htest)
    have hright : (bound .equal a).test b = false :=
      Bool.eq_false_iff.mpr fun htest => hsame (OrientedCmp.eq_symm (hiff.mp htest))
    rw [testAll_singleton, testAll_singleton, hleft, hright, Bool.false_and, Bool.false_and]

/-- Two bounds intersect in either order or in none. -/
theorem intersects_comm {c d : Comparator} (hc : c ≠ any) (hd : d ≠ any) :
    c.intersects d = d.intersects c := by
  cases c with
  | any => exact absurd rfl hc
  | bound operatorA a =>
    cases d with
    | any => exact absurd rfl hd
    | bound operatorB b =>
      by_cases hequalA : operatorA = .equal
      · subst hequalA
        by_cases hequalB : operatorB = .equal
        · subst hequalB
          exact testAll_equal_comm a b
        · rw [equal_intersects, intersects_equal hequalB]
      · by_cases hequalB : operatorB = .equal
        · subst hequalB
          rw [intersects_equal hequalA, equal_intersects]
        · rw [intersects_bounds hequalA hequalB, intersects_bounds hequalB hequalA]
          exact boundsIntersect_comm operatorA operatorB a b

end Comparator

end SemanticVersions
