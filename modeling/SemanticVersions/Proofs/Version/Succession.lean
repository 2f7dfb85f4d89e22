import SemanticVersions.Proofs.Version.Precedence

/-!
# The next version

Between a version and the next one there is no other.  Behind a prerelease comes
the one with the identifier `0` appended, and behind a release the prerelease `0`
of the release that comes next.  Only the greatest release has no next version.
-/

namespace SemanticVersions.Version

open Std

/-- The least version, `0.0.0-0`. -/
def least : Version :=
  ⟨0, 0, 0, [.numeric 0], []⟩

/-- The least version of the next release.  A number at its largest word starts again
and raises the number in front of it. -/
def openRelease? (v : Version) : Option Version :=
  if v.patch.toNat < maxWord then
    some ⟨v.major, v.minor, v.patch + 1, [.numeric 0], []⟩
  else if v.minor.toNat < maxWord then
    some ⟨v.major, v.minor + 1, 0, [.numeric 0], []⟩
  else if v.major.toNat < maxWord then
    some ⟨v.major + 1, 0, 0, [.numeric 0], []⟩
  else
    none

/-- The version that comes directly behind another one. -/
def next? (v : Version) : Option Version :=
  if v.isPrerelease then
    some { v with prerelease := v.prerelease ++ [.numeric 0], build := [] }
  else
    v.openRelease?

/-! ### Releases in a row -/

/-- The place of a version's release among all releases. -/
def releaseRank (v : Version) : Nat :=
  (v.major.toNat * UInt64.size + v.minor.toNat) * UInt64.size + v.patch.toNat

/-- Releases compare as their places among all releases. -/
theorem compareRelease_eq_lt_iff {a b : Version} :
    compareRelease a b = .lt ↔ a.releaseRank < b.releaseRank := by
  have hminorA := a.minor.toNat_lt
  have hminorB := b.minor.toNat_lt
  have hpatchA := a.patch.toNat_lt
  have hpatchB := b.patch.toNat_lt
  simp only [compareRelease, Ordering.then_eq_lt, Std.compare_eq_lt,
    LawfulEqCmp.compare_eq_iff_eq, UInt64.lt_iff_toNat_lt, ← UInt64.toNat_inj, releaseRank,
    UInt64.size]
  omega

theorem compareRelease_isLE_iff {a b : Version} :
    (compareRelease a b).isLE = true ↔ a.releaseRank ≤ b.releaseRank := by
  have hswap : compareRelease a b = (compareRelease b a).swap := OrientedCmp.eq_swap
  rw [← Nat.not_lt, ← compareRelease_eq_lt_iff, hswap]
  cases compareRelease b a <;> simp

section OpenRelease

variable {v n : Version}

/-- A number that is raised moves on by one, and the numbers behind it start again from
their largest words. -/
theorem releaseRank_of_openRelease? (hopen : v.openRelease? = some n) :
    n.releaseRank = v.releaseRank + 1 := by
  have hraise : ∀ {word : UInt64}, word.toNat < maxWord → (word + 1).toNat = word.toNat + 1 := by
    intro word hlimit
    simp only [maxWord, UInt64.size] at hlimit
    rw [UInt64.toNat_add, UInt64.toNat_one]
    omega
  have hminor := v.minor.toNat_lt
  have hpatch := v.patch.toNat_lt
  unfold openRelease? at hopen
  split at hopen
  · next hlimit =>
    cases hopen
    simp only [releaseRank, hraise hlimit]
    omega
  split at hopen
  · next hlimit =>
    cases hopen
    simp only [releaseRank, maxWord, UInt64.size, hraise hlimit, UInt64.toNat_zero] at *
    omega
  split at hopen
  · next hlimit =>
    cases hopen
    simp only [releaseRank, maxWord, UInt64.size, hraise hlimit, UInt64.toNat_zero] at *
    omega
  · cases hopen

theorem prerelease_of_openRelease? (hopen : v.openRelease? = some n) :
    n.prerelease = [.numeric 0] ∧ n.build = [] := by
  unfold openRelease? at hopen
  grind

/-- A version behind which no release opens is on the last one. -/
theorem releaseRank_le_of_openRelease? (hopen : v.openRelease? = none) (w : Version) :
    w.releaseRank ≤ v.releaseRank := by
  have hmajor := w.major.toNat_lt
  have hminor := w.minor.toNat_lt
  have hpatch := w.patch.toNat_lt
  unfold openRelease? at hopen
  simp only [releaseRank, maxWord, UInt64.size] at *
  grind

/-- Behind a release come exactly the versions from the opening of the next one on. -/
theorem compareRelease_eq_lt_iff_openRelease? {w : Version} :
    compareRelease v w = .lt ↔
      ∃ n, v.openRelease? = some n ∧ (compareRelease n w).isLE = true := by
  rw [compareRelease_eq_lt_iff]
  cases hopen : v.openRelease? with
  | none =>
    have hlast := releaseRank_le_of_openRelease? hopen w
    simp [Nat.not_lt.mpr hlast]
  | some n =>
    have hrank := releaseRank_of_openRelease? hopen
    simp only [Option.some.injEq, exists_eq_left', compareRelease_isLE_iff]
    omega

end OpenRelease

/-! ### Prereleases in a row -/

theorem zero_comparePrerelease_isLE (ids : List Identifier) :
    (comparePrerelease [.numeric 0] ids).isLE = true := by
  have hswap : comparePrerelease [.numeric 0] ids = .gt ↔
      comparePrerelease ids [.numeric 0] = .lt := OrientedCmp.gt_iff_lt
  rw [Ordering.isLE_iff_ne_gt, hswap]
  exact comparePrerelease_zero_ne_lt ids

/-- Behind identifiers come exactly the lists from the one with a zero appended on. -/
theorem compare_append_zero_isLE_iff {ids others : List Identifier} :
    (compare (ids ++ [.numeric 0]) others).isLE = true ↔ compare ids others = .lt := by
  induction ids generalizing others with
  | nil =>
    cases others with
    | nil => simp [List.compare_cons_nil, ReflCmp.compare_self]
    | cons other rest =>
      have hzero : (compare [.numeric 0] (other :: rest)).isLE = true :=
        zero_comparePrerelease_isLE (other :: rest)
      simp only [List.nil_append, hzero, List.compare_nil_cons]
  | cons id ids ih =>
    cases others with
    | nil => simp [List.compare_cons_nil]
    | cons other rest =>
      rw [List.cons_append, List.compare_cons_cons, List.compare_cons_cons,
        Ordering.isLE_then_iff_or, Ordering.then_eq_lt, ih]

/-- Behind a prerelease the one with a zero put at its end comes first. -/
theorem comparePrerelease_append_zero_isLE_iff {ids : List Identifier} (hids : ids ≠ [])
    (others : List Identifier) :
    (comparePrerelease (ids ++ [.numeric 0]) others).isLE = true ↔
      comparePrerelease ids others = .lt := by
  cases ids with
  | nil => exact absurd rfl hids
  | cons id ids =>
    cases others with
    | nil => simp [comparePrerelease]
    | cons other rest =>
      have happend : (compare (id :: ids ++ [.numeric 0]) (other :: rest)).isLE = true ↔
          compare (id :: ids) (other :: rest) = .lt := compare_append_zero_isLE_iff
      exact happend

/-! ### Versions in a row -/

/-- No version stands before the least one. -/
theorem least_isLE (v : Version) : (compare least v).isLE = true := by
  rw [Ordering.isLE_iff_ne_gt, OrientedCmp.gt_iff_lt]
  exact compare_least_ne_lt v []

/-- The prerelease `0` of a release comes before all other versions of it. -/
theorem compare_isLE_iff_of_zero {n w : Version} (hzero : n.prerelease = [.numeric 0]) :
    (compare n w).isLE = true ↔ (compareRelease n w).isLE = true := by
  have hfirst := zero_comparePrerelease_isLE w.prerelease
  rw [compare_eq_then, hzero, Ordering.isLE_then_iff_or]
  cases compareRelease n w <;> simp [hfirst]

/-- Before a release stand the versions of its own and of earlier releases. -/
theorem compare_isLE_iff_of_release {a v : Version} (hv : v.isPrerelease = false) :
    (compare a v).isLE = true ↔ (compareRelease a v).isLE = true := by
  have hids : v.prerelease = [] := by simpa [isPrerelease] using hv
  have hlast : (comparePrerelease a.prerelease []).isLE = true := by
    cases a.prerelease <;> rfl
  rw [compare_eq_then, hids, Ordering.isLE_then_iff_or]
  cases compareRelease a v <;> simp [hlast]

section Next

variable {v n : Version}

theorem next?_of_isPrerelease (hprerelease : v.isPrerelease = true) :
    v.next? = some { v with prerelease := v.prerelease ++ [.numeric 0], build := [] } :=
  if_pos hprerelease

theorem next?_of_release (hrelease : v.isPrerelease = false) : v.next? = v.openRelease? := by
  simp [next?, hrelease]

/-- Behind a version come exactly the versions from the next one on. -/
theorem compare_eq_lt_iff_next? {w : Version} :
    compare v w = .lt ↔ ∃ n, v.next? = some n ∧ (compare n w).isLE = true := by
  cases hprerelease : v.isPrerelease with
  | true =>
    have hids : v.prerelease ≠ [] := by simpa [isPrerelease] using hprerelease
    simp only [next?_of_isPrerelease hprerelease, Option.some.injEq, exists_eq_left',
      compare_eq_then, Ordering.then_eq_lt, Ordering.isLE_then_iff_or,
      comparePrerelease_append_zero_isLE_iff hids]
    rfl
  | false =>
    have hids : v.prerelease = [] := by simpa [isPrerelease] using hprerelease
    have hlast : comparePrerelease [] w.prerelease ≠ .lt := by
      cases w.prerelease <;> simp [comparePrerelease]
    have hopens : ∀ n, v.openRelease? = some n →
        ((compare n w).isLE = true ↔ (compareRelease n w).isLE = true) := fun n hopen =>
      compare_isLE_iff_of_zero (prerelease_of_openRelease? hopen).1
    calc compare v w = .lt
        ↔ compareRelease v w = .lt := by
          rw [compare_eq_then, hids, Ordering.then_eq_lt]
          simp [hlast]
      _ ↔ ∃ n, v.openRelease? = some n ∧ (compareRelease n w).isLE = true :=
          compareRelease_eq_lt_iff_openRelease?
      _ ↔ ∃ n, v.next? = some n ∧ (compare n w).isLE = true := by
          rw [next?_of_release hprerelease]
          exact exists_congr fun n => and_congr_right fun hopen => (hopens n hopen).symm

theorem WellFormed.next? (hv : v.WellFormed) (hnext : v.next? = some n) : n.WellFormed := by
  cases hprerelease : v.isPrerelease with
  | true =>
    rw [next?_of_isPrerelease hprerelease] at hnext
    cases hnext
    have hzero : (Identifier.numeric 0).WellFormed := trivial
    exact ⟨List.forall_mem_append.mpr ⟨hv.1, List.forall_mem_singleton.mpr hzero⟩, by simp⟩
  | false =>
    rw [next?_of_release hprerelease] at hnext
    obtain ⟨hids, hbuild⟩ := prerelease_of_openRelease? hnext
    simp [Version.WellFormed, hids, hbuild, Identifier.WellFormed]

end Next

end SemanticVersions.Version
