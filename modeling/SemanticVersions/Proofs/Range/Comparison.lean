import SemanticVersions.Proofs.Range.Leading

/-!
# Comparisons with partial versions

To compare with a partial version is to compare as many numbers as it gives.  The versions that
begin with these numbers lie on a line between two releases, and each operator takes what is on
the line, before it or behind it.  No prerelease is accepted, as neither end of the line is one.
-/

namespace SemanticVersions

open Std

namespace Operator

/-- Whether an operator asks for the given order of two things. -/
def allows (operator : Operator) (order : Ordering) : Bool :=
  match operator with
  | equal | identical => order.isEq
  | notEqual | different => order.isNe
  | greater => order.isGT
  | greaterEqual => order.isGE
  | less => order.isLT
  | lessEqual => order.isLE

/-- An operator holds of two versions as it allows their order. -/
theorem holds_eq_allows {operator : Operator} (hsign : operator.hasSign = true) (a b : Version) :
    operator.holds a b = operator.allows (compare a b) := by
  cases operator <;> first | rfl | cases hsign

/-- Against a partial version with all its numbers a release stands as it stands against the
version: the order by leading numbers continues the precedence that operators ask for. -/
theorem holds_eq_allows_compareLeading {operator : Operator} (hsign : operator.hasSign = true)
    {v base : Version} (hv : v.isPrerelease = false) (hbase : base.isPrerelease = false) :
    operator.holds v base = operator.allows
      (v.compareLeading (.full base.major.toNat base.minor.toNat base.patch.toNat [])) := by
  have hnone : ∀ {w : Version}, w.isPrerelease = false → w.prerelease = [] := by
    simp [Version.isPrerelease]
  have hleading : v.compareLeading
      (.full base.major.toNat base.minor.toNat base.patch.toNat []) =
        Version.compareRelease v base := (Version.compareRelease_eq_compare_numbers v base).symm
  rw [holds_eq_allows hsign, hleading, Version.compare_eq_then, hnone hv, hnone hbase,
    Version.comparePrerelease, Ordering.then_eq]

end Operator

namespace Version

/-- Between releases there are releases only. -/
theorem isWithin_iff_of_releases {lower upper : Option Version}
    (hlower : ∀ base ∈ lower, base.isPrerelease = false) {v : Version} :
    v.IsWithin lower upper ↔
      v.isPrerelease = false ∧ (∀ base ∈ lower, ¬ compareRelease v base = .lt) ∧
        ∀ release ∈ upper, compareRelease v release = .lt := by
  have hnone : ¬ ∃ base ∈ lower, base.isPrerelease = true ∧ base.sameRelease v = true := by
    rintro ⟨base, hbase, hprerelease, _⟩
    rw [hlower base hbase] at hprerelease
    cases hprerelease
  have hnotLess : v.isPrerelease = false → ∀ base : Version,
      (compare base v).isLE = true ↔ ¬ compareRelease v base = .lt := by
    intro hv base
    rw [compare_isLE_iff_of_release hv, Ordering.isLE_iff_ne_gt, ← OrientedCmp.gt_iff_lt]
  simp only [IsWithin, hnone, imp_false, Bool.not_eq_true]
  constructor
  · rintro ⟨hbase, hrelease, hv⟩
    exact ⟨hv, fun base hmem => (hnotLess hv base).mp (hbase base hmem), hrelease⟩
  · rintro ⟨hv, hbase, hrelease⟩
    exact ⟨fun base hmem => (hnotLess hv base).mpr (hbase base hmem), hrelease, hv⟩

end Version

namespace Shorthand

def lineEnd (numbers : Nat × Nat) : Version :=
  .ofNumbers [numbers.1, numbers.2] []

def lineEnds? (operator : Operator) (base : Version) (after? : Option Version) :
    Option (Option Version × Option Version) :=
  match operator with
  | .greater => after?.map fun release => (some release, none)
  | .greaterEqual => some (some base, none)
  | .less => some (none, some base)
  | .lessEqual => after?.map fun release => (none, some release)
  | _ => after?.map fun release => (some base, some release)

section Line

variable {numbers first : Nat × Nat} {after? : Option (Nat × Nat)}

theorem atLeast_eq_ofVersion_lineEnd (hfits : numbers.1 ≤ maxWord ∧ numbers.2 ≤ maxWord) :
    Bound.atLeast numbers.1 numbers.2 0 [] =
      Bound.ofVersion .greaterEqual (lineEnd numbers) := by
  have hall : ∀ n ∈ [numbers.1, numbers.2], n ≤ maxWord := by simpa using hfits
  exact (Bound.ofVersion_ofNumbers hall .greaterEqual []).symm

theorem below_eq_ofVersion_lineEnd (hfits : numbers.1 ≤ maxWord ∧ numbers.2 ≤ maxWord) :
    Bound.below numbers.1 numbers.2 0 = Bound.ofVersion .less (lineEnd numbers).opening := by
  have hall : ∀ n ∈ [numbers.1, numbers.2], n ≤ maxWord := by simpa using hfits
  exact Bound.below_eq_ofVersion hall

theorem fitting?_of_le (hfits : numbers.1 ≤ maxWord ∧ numbers.2 ≤ maxWord) :
    fitting? numbers = some numbers := if_pos hfits

/-- The bounds of a line are those between the ends that the operator asks for. -/
theorem lineBounds?_eq (operator : Operator) (hfirst : first.1 ≤ maxWord ∧ first.2 ≤ maxWord)
    (hafter : ∀ after ∈ after?, after.1 ≤ maxWord ∧ after.2 ≤ maxWord) :
    lineBounds? operator first after? =
      (lineEnds? operator (lineEnd first) (after?.map lineEnd)).map fun ends =>
        Bound.interval ends.1 ends.2 := by
  have hlower := atLeast_eq_ofVersion_lineEnd hfirst
  have hupper := below_eq_ofVersion_lineEnd hfirst
  cases after? with
  | none =>
    cases operator <;>
      simp [lineBounds?, lineEnds?, fitting?_of_le hfirst, hlower, hupper, Bound.interval]
  | some after =>
    have hfits := hafter after rfl
    have hlowerAfter := atLeast_eq_ofVersion_lineEnd hfits
    have hupperAfter := below_eq_ofVersion_lineEnd hfits
    cases operator <;>
      simp [lineBounds?, lineEnds?, fitting?_of_le hfirst, fitting?_of_le hfits, hlower, hupper,
        hlowerAfter, hupperAfter, Bound.interval]

end Line

section Compared

variable {version : Partial} (hfits : ∀ n ∈ version.numbers, n ≤ maxWord)
  (hfull : version.isFull = false) (hversion : version ≠ .any)

include hfits hfull hversion

/-- Comparing with a partial version has the bounds between the ends that the operator asks for. -/
theorem comparedBounds?_eq (operator : Operator) :
    comparedBounds? operator version =
      (lineEnds? operator (.ofNumbers version.numbers []) version.after?).map fun ends =>
        Bound.interval ends.1 ends.2 := by
  have hnext : ∀ {n next : Nat}, Bound.next? n = some next → next ≤ maxWord := by
    intro n next hnext
    obtain ⟨hlimit, rfl⟩ := Bound.next?_eq_some_iff.mp hnext
    exact hlimit
  cases version with
  | any => exact absurd rfl hversion
  | major M =>
    have hM : M ≤ maxWord := hfits M (by simp [Partial.numbers])
    rw [comparedBounds?, lineBounds?_eq operator ⟨hM, Nat.zero_le _⟩, Option.map_map]
    · rfl
    · intro after hafter
      obtain ⟨next, hsome, rfl⟩ := Option.map_eq_some_iff.mp hafter
      exact ⟨hnext hsome, Nat.zero_le _⟩
  | minor M m =>
    have hM : M ≤ maxWord := hfits M (by simp [Partial.numbers])
    have hm : m ≤ maxWord := hfits m (by simp [Partial.numbers])
    rw [comparedBounds?, lineBounds?_eq operator ⟨hM, hm⟩, Option.map_map]
    · rfl
    · intro after hafter
      obtain ⟨next, hsome, rfl⟩ := Option.map_eq_some_iff.mp hafter
      exact ⟨hM, hnext hsome⟩
  | full M m p prerelease => cases hfull

end Compared

section Ends

variable {version : Partial} (hfits : ∀ n ∈ version.numbers, n ≤ maxWord)
  (hfull : version.isFull = false) {operator : Operator} (hsign : operator.hasSign = true)

include hsign in
/-- Bounds are missing only if the operator needs the end behind a line and there is none. -/
theorem lineEnds?_eq_none_iff {base : Version} {after? : Option Version} :
    lineEnds? operator base after? = none ↔
      after? = none ∧ operator ∈ [Operator.equal, .greater, .lessEqual] := by
  cases operator <;> simp_all [lineEnds?, Operator.hasSign]

theorem lineEnds?_isRelease {ends : Option Version × Option Version}
    (hends : lineEnds? operator (.ofNumbers version.numbers []) version.after? = some ends) :
    ∀ base ∈ ends.1, base.prerelease = [] ∧ base.build = [] := by
  have hafter : ∀ release ∈ version.after?, release.prerelease = [] ∧ release.build = [] := by
    intro release hrelease
    obtain ⟨front, last, _, _, rfl⟩ := Partial.after?_eq_some_iff.mp hrelease
    exact ⟨rfl, rfl⟩
  intro base hbase
  unfold lineEnds? at hends
  split at hends
  · obtain ⟨release, hrelease, rfl⟩ := Option.map_eq_some_iff.mp hends
    cases hbase
    exact hafter base hrelease
  · cases hends
    cases hbase
    exact ⟨rfl, rfl⟩
  · cases hends
    cases hbase
  · obtain ⟨release, hrelease, rfl⟩ := Option.map_eq_some_iff.mp hends
    cases hbase
  · obtain ⟨release, hrelease, rfl⟩ := Option.map_eq_some_iff.mp hends
    cases hbase
    exact ⟨rfl, rfl⟩

include hfits hsign hfull

/-- The ends of a comparison enclose the releases whose leading numbers are in an order that the
operator allows. -/
theorem isWithin_lineEnds?_iff {ends : Option Version × Option Version}
    (hends : lineEnds? operator (.ofNumbers version.numbers []) version.after? = some ends)
    (v : Version) :
    v.IsWithin ends.1 ends.2 ↔
      v.isPrerelease = false ∧ operator.allows (v.compareLeading version) = true := by
  have hreleases : ∀ base ∈ ends.1, base.isPrerelease = false := by
    intro base hbase
    rw [Version.isPrerelease, (lineEnds?_isRelease hends base hbase).1]
    rfl
  rw [Version.isWithin_iff_of_releases hreleases]
  refine and_congr_right fun _ => ?_
  have hbefore := Partial.compareRelease_ofNumbers_eq_lt_iff hfits hfull v
  have hafter : ∀ release ∈ version.after?, Version.compareRelease v release = .lt ↔
      (v.compareLeading version).isLE = true :=
    fun release hrelease => Partial.compareRelease_after?_eq_lt_iff hfits hrelease v
  cases operator with
  | greater =>
    obtain ⟨release, hrelease, rfl⟩ := Option.map_eq_some_iff.mp hends
    simp [hafter release hrelease, Operator.allows]
  | greaterEqual =>
    cases hends
    simp [hbefore, Operator.allows, Ordering.isGE_iff_ne_lt]
  | less =>
    cases hends
    simp [hbefore, Operator.allows]
  | lessEqual =>
    obtain ⟨release, hrelease, rfl⟩ := Option.map_eq_some_iff.mp hends
    simp [hafter release hrelease, Operator.allows]
  | equal =>
    obtain ⟨release, hrelease, rfl⟩ := Option.map_eq_some_iff.mp hends
    simp only [Option.mem_some_iff, forall_eq', hbefore, hafter release hrelease, Operator.allows]
    cases v.compareLeading version <;> decide
  | _ => cases hsign

omit hfits hfull in
/-- All versions begin with no numbers, so none is before them or behind them. -/
theorem exists_bounds_any :
    ∃ lower upper, comparedBounds? operator .any = some (Bound.interval lower upper) ∧
      (∀ base ∈ lower, base.WellFormed) ∧ ∀ v : Version, v.IsWithin lower upper ↔
        v.isPrerelease = false ∧ operator.allows (v.compareLeading .any) = true := by
  have hnoLower : ∀ base ∈ (none : Option Version), base.isPrerelease = false := by simp
  have hnoNumber : ∀ n ∈ Partial.any.numbers, n ≤ maxWord := List.forall_mem_nil _
  have hempty : ∀ v : Version, ¬ v.IsWithin none (some (.ofNumbers [] [])) := by
    intro v hwithin
    rw [Version.isWithin_iff_of_releases hnoLower] at hwithin
    have hbefore := Partial.compareRelease_ofNumbers_eq_lt_iff hnoNumber rfl v
    cases hbefore.mp (hwithin.2.2 _ rfl)
  have hwhole : ∀ v : Version, v.IsWithin none none ↔ v.isPrerelease = false := by
    intro v
    rw [Version.isWithin_iff_of_releases hnoLower]
    simp
  cases operator with
  | greater | less =>
    refine ⟨none, some (.ofNumbers [] []), rfl, by simp, fun v => ?_⟩
    simp [hempty v, Operator.allows]
  | equal | greaterEqual | lessEqual =>
    refine ⟨none, none, rfl, by simp, fun v => ?_⟩
    simp [hwhole v, Operator.allows]
  | _ => cases hsign

/-- A comparison has bounds unless it needs the release behind the line, and there is none. -/
theorem comparedBounds?_cases :
    (version.numbers.getLast? = some maxWord ∧
        operator ∈ [Operator.equal, .greater, .lessEqual]) ∧
          comparedBounds? operator version = none ∨
      ¬ (version.numbers.getLast? = some maxWord ∧
        operator ∈ [Operator.equal, .greater, .lessEqual]) ∧
          ∃ lower upper, comparedBounds? operator version = some (Bound.interval lower upper) ∧
            (∀ base ∈ lower, base.WellFormed) ∧ ∀ v : Version, v.IsWithin lower upper ↔
              v.isPrerelease = false ∧ operator.allows (v.compareLeading version) = true := by
  by_cases hversion : version = .any
  · subst hversion
    exact .inr ⟨by simp [Partial.numbers], exists_bounds_any hsign⟩
  · have hbounds := comparedBounds?_eq hfits hfull hversion operator
    have hne : version.numbers ≠ [] := mt Partial.numbers_eq_nil_iff.mp hversion
    have hnone : lineEnds? operator (.ofNumbers version.numbers []) version.after? = none ↔
        version.numbers.getLast? = some maxWord ∧
          operator ∈ [Operator.equal, .greater, .lessEqual] := by
      rw [lineEnds?_eq_none_iff hsign, Partial.after?_eq_none_iff hfits hne]
    cases hends : lineEnds? operator (.ofNumbers version.numbers []) version.after? with
    | none =>
      rw [hends] at hbounds
      exact .inl ⟨hnone.mp hends, hbounds⟩
    | some ends =>
      rw [hends] at hbounds
      refine .inr ⟨fun hlimit => ?_, ends.1, ends.2, hbounds, ?_,
        isWithin_lineEnds?_iff hfits hfull hsign hends⟩
      · rw [hnone.mpr hlimit] at hends
        cases hends
      · intro base hbase
        obtain ⟨hprerelease, hbuild⟩ := lineEnds?_isRelease hends base hbase
        rw [Version.WellFormed, hprerelease, hbuild]
        exact ⟨List.forall_mem_nil _, List.forall_mem_nil _⟩

end Ends

end Shorthand

namespace Range

/-- A comparison with a partial version is refused exactly if it needs the release behind the
versions that begin with its numbers, and the last number cannot be raised.  Else it accepts the
releases whose leading numbers are in the order asked for, and no prerelease. -/
theorem comparison_accepts_leading {token sign text : Text}
    (hblank : ∀ c ∈ token, isBlank c = false) (hspan : spanSign token = (sign, text))
    {operator : Operator} (hsign : Operator.read sign = .ok operator) {version : Partial}
    (hversion : Partial.read? text = some version) (hfull : version.isFull = false)
    (hfits : ∀ n ∈ version.numbers, n ≤ maxWord) :
    (∀ error, read token = .error error ↔
        error = .invalidComparator token ∧ version.numbers.getLast? = some maxWord ∧
          operator ∈ [Operator.equal, .greater, .lessEqual]) ∧
      (¬ (version.numbers.getLast? = some maxWord ∧
          operator ∈ [Operator.equal, .greater, .lessEqual]) →
        ∃ range, read token = .ok range ∧ ∀ v : Version, range.test v = true ↔
          v.isPrerelease = false ∧ operator.allows (v.compareLeading version) = true) := by
  have hoperator : Operator.read (spanSign token).1 = .ok operator := by rwa [hspan]
  have hpartial : Partial.read? (spanSign token).2 = some version := by rwa [hspan]
  have hknown : operator.hasSign = true := by
    obtain ⟨known, hknown, hsigned⟩ := Operator.read_spanSign token
    rw [hoperator] at hknown
    cases hknown
    exact hsigned
  have hshorthand := Shorthand.read?_eq_compared hoperator hpartial hfull
  exact read_shorthand_iff hblank hshorthand (Shorthand.comparedBounds?_cases hfits hfull hknown)

/-- `>1.2` accepts `1.3.0`, and neither `1.2.9` nor a prerelease of `1.3.0`. -/
theorem comparison_accepts_leading_sample :
    let token := ['>', '1', '.', '2']
    (∀ c ∈ token, isBlank c = false) ∧ spanSign token = (['>'], ['1', '.', '2']) ∧
      Operator.read ['>'] = .ok .greater ∧ Partial.read? ['1', '.', '2'] = some (.minor 1 2) ∧
        (Partial.minor 1 2).isFull = false ∧
          (∀ n ∈ (Partial.minor 1 2).numbers, n ≤ maxWord) ∧
            ∃ range, read token = .ok range ∧ range.test ⟨1, 3, 0, [], []⟩ = true ∧
              range.test ⟨1, 2, 9, [], []⟩ = false ∧
                range.test ⟨1, 3, 0, [.numeric 0], []⟩ = false := by
  intro token
  have hblank : ∀ c ∈ token, isBlank c = false := by
    have hall : token.all (!isBlank ·) = true := by decide
    simpa using hall
  have hspan : spanSign token = (['>'], ['1', '.', '2']) := rfl
  have hversion : Partial.read? ['1', '.', '2'] = some (.minor 1 2) := by decide
  have hfits : ∀ n ∈ (Partial.minor 1 2).numbers, n ≤ maxWord := by decide
  obtain ⟨range, hread, haccepts⟩ :=
    (comparison_accepts_leading hblank hspan rfl hversion rfl hfits).2 (by decide)
  refine ⟨hblank, hspan, rfl, hversion, rfl, hfits, range, hread, ?_, ?_, ?_⟩
  · rw [haccepts]
    decide
  · rw [← Bool.not_eq_true, haccepts]
    decide
  · rw [← Bool.not_eq_true, haccepts]
    decide

end Range

end SemanticVersions
