import SemanticVersions.Proofs.Comparator.Intersection
import SemanticVersions.Proofs.Version.Succession

/-!
# Comparators as intervals

The versions that meet a comparator form an interval: it begins at a lowest version
and reaches up to a bound.  Several comparators have a version in common exactly if
each interval begins where all the others still reach.  Comparators that intersect
do so unless there is a gap where they should meet: nothing comes before the least
version, nothing behind the greatest, and nothing between a version and the next.
-/

namespace SemanticVersions.Comparator

open Std

/-- The version at which the interval of a comparator begins. -/
def lowest? : Comparator → Option Version
  | bound .equal a => some a
  | bound .greaterEqual a => some a
  | bound .greater a => a.next?
  | _ => some .least

/-- Whether a version is not above the interval of a comparator. -/
def reaches (c : Comparator) (v : Version) : Bool :=
  match c with
  | bound .equal b => (compare v b).isLE
  | bound .lessEqual b => (compare v b).isLE
  | bound .less b => (compare v b).isLT
  | _ => true

/-- A comparator holds of the versions from its lowest one up to its bound. -/
theorem test_iff {c : Comparator} (hsign : c.operator.hasSign = true) {v : Version} :
    c.test v = true ↔
      (∃ n, c.lowest? = some n ∧ (compare n v).isLE = true) ∧ c.reaches v = true := by
  cases c with
  | any => simp [test, lowest?, reaches, Version.least_isLE]
  | bound operator b =>
    cases operator with
    | equal =>
      simp only [test, Operator.holds, lowest?, reaches, Option.some.injEq, exists_eq_left',
        ← OrientedCmp.isGE_iff_isLE (a := v)]
      cases compare v b <;> simp
    | greater =>
      simp [test, Operator.holds, lowest?, reaches, ← Version.compare_eq_lt_iff_next?,
        OrientedCmp.gt_iff_lt]
    | greaterEqual =>
      simp [test, Operator.holds, lowest?, reaches, OrientedCmp.isGE_iff_isLE]
    | less => simp [test, Operator.holds, lowest?, reaches, Version.least_isLE]
    | lessEqual => simp [test, Operator.holds, lowest?, reaches, Version.least_isLE]
    | _ => cases hsign

theorem reaches_of_isLE {c : Comparator} {v w : Version} (hle : (compare v w).isLE = true)
    (hreaches : c.reaches w = true) : c.reaches v = true := by
  unfold reaches at *
  split at hreaches
  · exact TransCmp.isLE_trans hle hreaches
  · exact TransCmp.isLE_trans hle hreaches
  · rw [Ordering.isLT_iff_eq_lt] at *
    exact TransCmp.lt_of_isLE_of_lt hle hreaches
  · rfl

theorem WellFormed.lowest? {c : Comparator} (hc : c.WellFormed) {n : Version}
    (hlowest : c.lowest? = some n) : n.WellFormed := by
  have hleast : Version.least.WellFormed := by
    simp [Version.WellFormed, Version.least, Identifier.WellFormed]
  unfold Comparator.lowest? at hlowest
  split at hlowest
  · cases hlowest
    exact hc.2
  · cases hlowest
    exact hc.2
  · exact Version.WellFormed.next? hc.2 hlowest
  · cases hlowest
    exact hleast

/-- Whether some version that can be written meets all the comparators. -/
def HasCommonVersion (comparators : List Comparator) : Prop :=
  ∃ v : Version, v.WellFormed ∧ ∀ c ∈ comparators, c.test v = true

section Common

variable {comparators : List Comparator} (hwellFormed : ∀ c ∈ comparators, c.WellFormed)

include hwellFormed

/-- Where comparators share a version, each interval begins where no other one has ended. -/
theorem lowest?_reached_of_test {v : Version} (htest : ∀ c ∈ comparators, c.test v = true) :
    ∀ c ∈ comparators, ∃ n, c.lowest? = some n ∧ ∀ d ∈ comparators, d.reaches n = true := by
  have hinterval : ∀ c ∈ comparators,
      (∃ n, c.lowest? = some n ∧ (compare n v).isLE = true) ∧ c.reaches v = true :=
    fun c hc => (test_iff (hwellFormed c hc).hasSign_operator).mp (htest c hc)
  intro c hc
  obtain ⟨⟨n, hlowest, hle⟩, _⟩ := hinterval c hc
  exact ⟨n, hlowest, fun d hd => reaches_of_isLE hle (hinterval d hd).2⟩

/-- The greatest of the lowest versions meets all comparators that reach it. -/
theorem hasCommonVersion_of_lowest? (hne : comparators ≠ [])
    (hreached : ∀ c ∈ comparators,
      ∃ n, c.lowest? = some n ∧ ∀ d ∈ comparators, d.reaches n = true) :
    HasCommonVersion comparators := by
  have hsome : comparators.filterMap lowest? ≠ [] := by
    obtain ⟨c, hc⟩ := List.exists_mem_of_ne_nil comparators hne
    obtain ⟨n, hlowest, _⟩ := hreached c hc
    exact List.ne_nil_of_mem (List.mem_filterMap.mpr ⟨c, hc, hlowest⟩)
  -- The interval that begins last decides: all others have begun there and still reach it.
  obtain ⟨n, hn, hgreatest⟩ := Version.exists_greatest hsome
  obtain ⟨c, hc, hlowest⟩ := List.mem_filterMap.mp hn
  refine ⟨n, (hwellFormed c hc).lowest? hlowest, fun d hd => ?_⟩
  obtain ⟨m, hm, _⟩ := hreached d hd
  have hle : (compare m n).isLE = true := hgreatest m (List.mem_filterMap.mpr ⟨d, hd, hm⟩)
  obtain ⟨n', hn', hreaches⟩ := hreached c hc
  obtain rfl : n = n' := Option.some.inj (hlowest.symm.trans hn')
  exact (test_iff (hwellFormed d hd).hasSign_operator).mpr ⟨⟨m, hm, hle⟩, hreaches d hd⟩

end Common

/-! ### Gaps -/

def isEmpty : Comparator → Bool
  | bound .greater a => a.next?.isNone
  | c => c.isNullSet

/-- Whether one version is next to the other, and only those between them are asked
for. -/
def adjoins : Comparator → Comparator → Bool
  | bound .greater a, bound .less b => a.next?.any (·.isSame b)
  | _, _ => false

/-- Whether comparators ask for a version where there is none. -/
def Gap (comparators : List Comparator) : Prop :=
  ∃ c ∈ comparators, c.isEmpty = true ∨ ∃ d ∈ comparators, c.adjoins d = true

instance : DecidablePred Gap := fun comparators =>
  inferInstanceAs (Decidable
    (∃ c ∈ comparators, c.isEmpty = true ∨ ∃ d ∈ comparators, c.adjoins d = true))

/-! ### Comparators that intersect -/

/-- Whether two comparators intersect in one of the two orders. -/
def Touch (c d : Comparator) : Prop :=
  c.intersects d = true ∨ d.intersects c = true

theorem Touch.symm {c d : Comparator} (htouch : Touch c d) : Touch d c :=
  Or.symm htouch

instance : Symm Touch :=
  ⟨fun _ _ => Touch.symm⟩

/-- Bounds that intersect in one order intersect in the other one. -/
theorem Touch.intersects {c d : Comparator} (htouch : Touch c d) (hc : c ≠ any) (hd : d ≠ any) :
    c.intersects d = true := by
  rcases htouch with hintersects | hintersects
  · exact hintersects
  · rwa [intersects_comm hc hd]

/-- An equality touches only comparators that its version meets. -/
theorem Touch.test_of_equal {b : Version} {c : Comparator} (htouch : Touch (bound .equal b) c) :
    c.test b = true := by
  by_cases hc : c = any
  · rw [hc]
    rfl
  have hintersects := htouch.intersects (by simp) hc
  rw [equal_intersects, testAll_singleton, Bool.and_eq_true] at hintersects
  exact hintersects.1

theorem Touch.refl {c : Comparator} (hsign : c.operator.hasSign = true) : Touch c c := by
  refine .inl ?_
  cases c with
  | any => rfl
  | bound operator a =>
    cases operator with
    | equal =>
      have htest : (bound .equal a).test a = true := by simp [test, Operator.holds]
      have hadmits : a.isPrerelease = true → admits a (bound .equal a) = true :=
        admits_of_equal htest
      rw [equal_intersects, testAll_singleton, htest]
      cases hprerelease : a.isPrerelease with
      | false => rfl
      | true =>
        rw [hadmits hprerelease]
        rfl
    | _ => first | rfl | cases hsign

/-- Two opposite bounds touch if the lower one comes first, or both include one version. -/
theorem Touch.compare_of_opposite {lower upper : Operator} {a b : Version}
    (htouch : Touch (bound lower a) (bound upper b)) (hlower : lower.isLower = true)
    (hupper : upper.isUpper = true) (ha : a.WellFormed) (hb : b.WellFormed) :
    compare a b = .lt ∨
      (compare a b = .eq ∧ lower.isInclusive = true ∧ upper.isInclusive = true) := by
  have hintersects := htouch.intersects (by simp) (by simp)
  exact (intersects_opposite_iff hlower hupper ha hb).mp hintersects

/-- An interval that is not empty begins at some version. -/
theorem exists_lowest {c : Comparator} (hempty : c.isEmpty = false) :
    ∃ n, c.lowest? = some n := by
  unfold lowest?
  split
  · exact ⟨_, rfl⟩
  · exact ⟨_, rfl⟩
  · next a =>
    apply Option.isSome_iff_exists.mp
    simpa [isEmpty] using hempty
  · exact ⟨_, rfl⟩

theorem reaches_least {c : Comparator} (hnull : c.isNullSet = false) :
    c.reaches .least = true := by
  unfold reaches
  split
  · exact Version.least_isLE _
  · exact Version.least_isLE _
  · next b =>
    have hne : compare .least b ≠ .eq := by
      intro hsame
      have hb := Version.compare_eq_iff.mp (OrientedCmp.eq_symm hsame)
      rw [hb] at hnull
      cases hnull
    have hle := Version.least_isLE b
    cases hcompare : compare Version.least b <;> simp_all
  · rfl

section Upper

variable {upper : Operator} {n b : Version}

theorem reaches_of_lt (hupper : upper.isUpper = true) (hless : compare n b = .lt) :
    (bound upper b).reaches n = true := by
  cases upper <;> simp_all [reaches, Operator.isUpper]

theorem reaches_of_isInclusive (hupper : upper.isUpper = true)
    (hinclusive : upper.isInclusive = true) (hle : (compare n b).isLE = true) :
    (bound upper b).reaches n = true := by
  cases upper <;> simp_all [reaches, Operator.isUpper, Operator.isInclusive]

end Upper

/-- An upper bound that touches a comparator lies above the lowest version of it, or the
two leave nothing between them. -/
theorem Touch.reaches_of_upper {c : Comparator} {upper : Operator} {b n : Version}
    (hc : c.WellFormed) (hd : (bound upper b).WellFormed) (hupper : upper.isUpper = true)
    (htouch : Touch c (bound upper b)) (hempty : (bound upper b).isEmpty = false)
    (hadjoins : c.adjoins (bound upper b) = false) (hlowest : c.lowest? = some n) :
    (bound upper b).reaches n = true := by
  have hnull : (bound upper b).isNullSet = false := by
    cases upper <;> simp_all [isEmpty, Operator.isUpper]
  cases c with
  | any =>
    cases hlowest
    exact reaches_least hnull
  | bound operator a =>
    cases operator with
    | equal =>
      cases hlowest
      exact ((test_iff hd.hasSign_operator).mp htouch.test_of_equal).2
    | less =>
      cases hlowest
      exact reaches_least hnull
    | lessEqual =>
      cases hlowest
      exact reaches_least hnull
    | greaterEqual =>
      cases hlowest
      rcases htouch.compare_of_opposite rfl hupper hc.2 hd.2 with hless | ⟨hsame, _, hinclusive⟩
      · exact reaches_of_lt hupper hless
      · exact reaches_of_isInclusive hupper hinclusive (by simp [hsame])
    | greater =>
      have hless : compare a b = .lt := by
        rcases htouch.compare_of_opposite rfl hupper hc.2 hd.2 with hless | ⟨_, hinclusive, _⟩
        · exact hless
        · cases hinclusive
      -- The next version is at most `b`, and if it is `b` itself, `b` has to be included.
      obtain ⟨m, hm, hle⟩ := Version.compare_eq_lt_iff_next?.mp hless
      obtain rfl : n = m := Option.some.inj (hlowest.symm.trans hm)
      cases upper with
      | lessEqual => exact hle
      | less =>
        have hne : compare n b ≠ .eq := by simpa [adjoins, hm, Version.isSame] using hadjoins
        have hlt : compare n b = .lt := by
          cases hcompare : compare n b <;> simp_all
        exact reaches_of_lt rfl hlt
      | _ => cases hupper
    | _ => cases hc.1

/-- Where two comparators touch, the one reaches the lowest version of the other, unless
there is a gap. -/
theorem Touch.reaches_lowest {c d : Comparator} {n : Version} (hc : c.WellFormed)
    (hd : d.WellFormed) (htouch : Touch c d) (hempty : d.isEmpty = false)
    (hadjoins : c.adjoins d = false) (hlowest : c.lowest? = some n) : d.reaches n = true := by
  cases d with
  | any => rfl
  | bound operator b =>
    cases operator with
    | equal =>
      obtain ⟨⟨m, hm, hle⟩, _⟩ :=
        (test_iff hc.hasSign_operator).mp htouch.symm.test_of_equal
      obtain rfl : n = m := Option.some.inj (hlowest.symm.trans hm)
      exact hle
    | less => exact htouch.reaches_of_upper hc hd rfl hempty hadjoins hlowest
    | lessEqual => exact htouch.reaches_of_upper hc hd rfl hempty hadjoins hlowest
    | greater => rfl
    | greaterEqual => rfl
    | _ => cases hd.1

/-! ### Common versions and gaps -/

section Gap

variable {comparators : List Comparator} (hwellFormed : ∀ c ∈ comparators, c.WellFormed)

include hwellFormed

/-- Comparators that one version satisfies leave no gap. -/
theorem not_gap_of_test {v : Version} (htest : ∀ c ∈ comparators, c.test v = true) :
    ¬ Gap comparators := by
  have hreached := lowest?_reached_of_test hwellFormed htest
  rintro ⟨c, hc, hempty | ⟨d, hd, hadjoins⟩⟩
  · unfold isEmpty at hempty
    split at hempty
    · next a =>
      obtain ⟨n, hlowest, _⟩ := hreached _ hc
      have hnext : a.next? = some n := hlowest
      rw [hnext] at hempty
      cases hempty
    · have hnone := test_of_isNullSet hempty v
      rw [htest c hc] at hnone
      cases hnone
  · unfold adjoins at hadjoins
    split at hadjoins
    · next a b =>
      obtain ⟨n, hlowest, hreaches⟩ := hreached _ hc
      have hnext : a.next? = some n := hlowest
      have hless : compare n b = .lt := by
        simpa [reaches] using hreaches _ hd
      simp [hnext, Version.isSame, hless] at hadjoins
    · cases hadjoins

/-- Comparators that touch have a common version unless there is a gap. -/
theorem hasCommonVersion_iff (hne : comparators ≠ [])
    (htouch : ∀ c ∈ comparators, ∀ d ∈ comparators, Touch c d) :
    HasCommonVersion comparators ↔ ¬ Gap comparators := by
  constructor
  · rintro ⟨v, _, htest⟩
    exact not_gap_of_test hwellFormed htest
  · intro hgap
    have hempty : ∀ c ∈ comparators, c.isEmpty = false := fun c hc =>
      Bool.eq_false_iff.mpr fun hempty => hgap ⟨c, hc, .inl hempty⟩
    have hadjoins : ∀ c ∈ comparators, ∀ d ∈ comparators, c.adjoins d = false := fun c hc d hd =>
      Bool.eq_false_iff.mpr fun hadjoins => hgap ⟨c, hc, .inr ⟨d, hd, hadjoins⟩⟩
    apply hasCommonVersion_of_lowest? hwellFormed hne
    intro c hc
    obtain ⟨n, hlowest⟩ := exists_lowest (hempty c hc)
    refine ⟨n, hlowest, fun d hd => ?_⟩
    exact (htouch c hc d hd).reaches_lowest (hwellFormed c hc) (hwellFormed d hd) (hempty d hd)
      (hadjoins c hc d hd) hlowest

end Gap

end SemanticVersions.Comparator
