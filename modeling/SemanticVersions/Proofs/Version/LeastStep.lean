import SemanticVersions.Proofs.Version.Succession
import SemanticVersions.Version.Increment

/-!
# Increments are least steps

An increment leads to the first version of its kind behind the given one.  A plain kind leads to
the first release with zeros behind its number, and a prerelease kind without a name to the first
of all versions whose numbers are greater, as far as the kind counts them.  The number that is
raised must not be the largest word, for then it stays as it is and no such version is reached.
-/

namespace SemanticVersions

open Std

/-- A word is raised by one up to the largest word. -/
theorem toNat_nextWord (n : UInt64) : (nextWord n).toNat = min (n.toNat + 1) maxWord := by
  have hlimit : n.toNat ≤ maxWord := Nat.le_pred_of_lt n.toNat_lt
  rw [nextWord]
  split
  · next hroom =>
    have hsize : maxWord = UInt64.size - 1 := rfl
    simp only [UInt64.size] at hsize
    rw [UInt64.toNat_add, UInt64.toNat_one]
    omega
  · omega

namespace Version

/-- Whether a version belongs to a class and no other version of the class stands before it. -/
def IsFirst (among : Version → Prop) (n : Version) : Prop :=
  among n ∧ ∀ w, among w → (compare n w).isLE = true

/-- Whether a version is a release with a zero as its patch number. -/
def IsMinorRelease (v : Version) : Prop :=
  v.isPrerelease = false ∧ v.patch = 0

/-- Whether a version is a release with zeros behind its major number. -/
def IsMajorRelease (v : Version) : Prop :=
  v.isPrerelease = false ∧ v.minor = 0 ∧ v.patch = 0

/-- The number that an increment raises, if it raises one. -/
def raisedNumber? (v : Version) : ReleaseKind → Option UInt64
  | .major => if v.isPrerelease && v.minor == 0 && v.patch == 0 then none else some v.major
  | .minor => if v.isPrerelease && v.patch == 0 then none else some v.minor
  | .patch => if v.isPrerelease then none else some v.patch
  | .premajor => some v.major
  | .preminor => some v.minor
  | .prepatch => some v.patch
  | .prerelease => if v.isPrerelease then none else some v.patch
  | .pre => none

/-- Whether the number that an increment raises, if it raises one, is below the largest word. -/
def HasRoom (v : Version) (kind : ReleaseKind) : Prop :=
  ∀ n ∈ v.raisedNumber? kind, n.toNat < maxWord

instance (v : Version) (kind : ReleaseKind) : Decidable (v.HasRoom kind) :=
  Option.decidableForallMem (v.raisedNumber? kind)

/-- Whether an increment opens the prereleases of a further release. -/
def Opens (v : Version) (kind : ReleaseKind) : Prop :=
  kind = .premajor ∨ kind = .preminor ∨ kind = .prepatch ∨
    kind = .prerelease ∧ v.isPrerelease = false

variable {v w n : Version}

theorem isFirst_iff {among : Version → Prop} {room : Prop} (hn : among n ↔ room)
    (hleast : room → ∀ w, among w → (compare n w).isLE = true) : IsFirst among n ↔ room :=
  ⟨fun hfirst => hn.mp hfirst.1, fun hroom => ⟨hn.mpr hroom, hleast hroom⟩⟩

/-! ### Versions by their ranks -/

theorem compareRelease_eq_iff_releaseRank :
    compareRelease v w = .eq ↔ v.releaseRank = w.releaseRank := by
  have hminorV := v.minor.toNat_lt
  have hminorW := w.minor.toNat_lt
  have hpatchV := v.patch.toNat_lt
  have hpatchW := w.patch.toNat_lt
  simp only [compareRelease_eq_iff, ← UInt64.toNat_inj, releaseRank, UInt64.size]
  omega

/-- Before a release stand the versions of earlier releases and its own prereleases. -/
theorem compare_eq_lt_iff_of_release (hw : w.isPrerelease = false) :
    compare v w = .lt ↔ v.releaseRank < w.releaseRank ∨
      v.releaseRank = w.releaseRank ∧ v.isPrerelease = true := by
  have hids : w.prerelease = [] := by simpa [isPrerelease] using hw
  have hprerelease : v.isPrerelease = true ↔ v.prerelease ≠ [] := by simp [isPrerelease]
  rw [compare_eq_then, hids, Ordering.then_eq_lt, compareRelease_eq_lt_iff,
    compareRelease_eq_iff_releaseRank, comparePrerelease_nil_eq_lt_iff, hprerelease]

theorem compare_isLE_iff_releaseRank (hw : w.isPrerelease = false) :
    (compare n w).isLE = true ↔ n.releaseRank ≤ w.releaseRank := by
  rw [compare_isLE_iff_of_release hw, compareRelease_isLE_iff]

/-! ### Plain kinds -/

section Plain

variable {inClass : Version → Prop}

/-- The first release of a class behind a version, by ranks. -/
theorem isFirst_iff_releaseRank {room : Prop}
    (hrelease : ∀ w, inClass w → w.isPrerelease = false) (hn : inClass n)
    (hahead : v.releaseRank < n.releaseRank ∨
      v.releaseRank = n.releaseRank ∧ v.isPrerelease = true ↔ room)
    (hleast : room → ∀ w, inClass w →
      v.releaseRank < w.releaseRank ∨ v.releaseRank = w.releaseRank ∧ v.isPrerelease = true →
        n.releaseRank ≤ w.releaseRank) :
    IsFirst (fun w => inClass w ∧ compare v w = .lt) n ↔ room := by
  apply isFirst_iff
  · rw [compare_eq_lt_iff_of_release (hrelease n hn), hahead, and_iff_right hn]
  · rintro hroom w ⟨hw, hbehind⟩
    rw [compare_eq_lt_iff_of_release (hrelease w hw)] at hbehind
    rw [compare_isLE_iff_releaseRank (hrelease w hw)]
    exact hleast hroom w hw hbehind

/-- Behind a prerelease its own release comes first. -/
theorem isFirst_of_releaseRank_eq (hrelease : ∀ w, inClass w → w.isPrerelease = false)
    (hn : inClass n) (hprerelease : v.isPrerelease = true) (hrank : n.releaseRank = v.releaseRank) :
    IsFirst (fun w => inClass w ∧ compare v w = .lt) n := by
  have hfirst : IsFirst (fun w => inClass w ∧ compare v w = .lt) n ↔ True := by
    apply isFirst_iff_releaseRank hrelease hn
    · simp [hrank, hprerelease]
    · intro _ w _ hbehind
      omega
  exact hfirst.mpr trivial

/-- The next major release is the first one behind a version exactly if there is room for it. -/
theorem nextMajor_isFirst_iff :
    IsFirst (fun w => w.IsMajorRelease ∧ compare v w = .lt) v.nextMajor ↔ v.HasRoom .major := by
  have hrelease : ∀ w, IsMajorRelease w → w.isPrerelease = false := fun w hw => hw.1
  rw [HasRoom, raisedNumber?, nextMajor]
  split
  · next hstrip =>
    simp only [Bool.and_eq_true, beq_iff_eq] at hstrip
    obtain ⟨⟨hprerelease, hminor⟩, hpatch⟩ := hstrip
    have hrank : (v.withRelease v.major 0 0).releaseRank = v.releaseRank := by
      rw [releaseRank, releaseRank, hminor, hpatch]
      rfl
    have hfirst := isFirst_of_releaseRank_eq hrelease ⟨rfl, rfl, rfl⟩ hprerelease hrank
    exact iff_of_true hfirst (by simp)
  · next hraise =>
    have hminor := v.minor.toNat_lt
    have hpatch := v.patch.toNat_lt
    simp only [Bool.and_eq_true, beq_iff_eq, ← UInt64.toNat_inj, UInt64.toNat_zero] at hraise
    simp only [Option.mem_some, forall_eq']
    apply isFirst_iff_releaseRank hrelease ⟨rfl, rfl, rfl⟩
    · simp only [withRelease, releaseRank, toNat_nextWord, UInt64.toNat_zero, UInt64.size,
        maxWord]
      grind
    · rintro hroom w ⟨-, hminorW, hpatchW⟩ hbehind
      simp only [withRelease, releaseRank, toNat_nextWord, hminorW, hpatchW, UInt64.toNat_zero,
        UInt64.size, maxWord] at *
      grind

/-- The next minor release is the first one behind a version exactly if there is room for it. -/
theorem nextMinor_isFirst_iff :
    IsFirst (fun w => w.IsMinorRelease ∧ compare v w = .lt) v.nextMinor ↔ v.HasRoom .minor := by
  have hrelease : ∀ w, IsMinorRelease w → w.isPrerelease = false := fun w hw => hw.1
  rw [HasRoom, raisedNumber?, nextMinor]
  split
  · next hstrip =>
    simp only [Bool.and_eq_true, beq_iff_eq] at hstrip
    obtain ⟨hprerelease, hpatch⟩ := hstrip
    have hrank : (v.withRelease v.major v.minor 0).releaseRank = v.releaseRank := by
      rw [releaseRank, releaseRank, hpatch]
      rfl
    have hfirst := isFirst_of_releaseRank_eq hrelease ⟨rfl, rfl⟩ hprerelease hrank
    exact iff_of_true hfirst (by simp)
  · next hraise =>
    have hpatch := v.patch.toNat_lt
    simp only [Bool.and_eq_true, beq_iff_eq, ← UInt64.toNat_inj, UInt64.toNat_zero] at hraise
    simp only [Option.mem_some, forall_eq']
    apply isFirst_iff_releaseRank hrelease ⟨rfl, rfl⟩
    · simp only [withRelease, releaseRank, toNat_nextWord, UInt64.toNat_zero, UInt64.size,
        maxWord]
      grind
    · rintro hroom w ⟨-, hpatchW⟩ hbehind
      simp only [withRelease, releaseRank, toNat_nextWord, hpatchW, UInt64.toNat_zero,
        UInt64.size, maxWord] at *
      grind

/-- The next patch release is the first one behind a version exactly if there is room for it. -/
theorem nextPatch_isFirst_iff :
    IsFirst (fun w => w.isPrerelease = false ∧ compare v w = .lt) v.nextPatch ↔
      v.HasRoom .patch := by
  rw [HasRoom, raisedNumber?, nextPatch]
  split
  · next hprerelease =>
    have hrank : (v.withRelease v.major v.minor v.patch).releaseRank = v.releaseRank := rfl
    have hfirst := isFirst_of_releaseRank_eq (fun w hw => hw) rfl hprerelease hrank
    exact iff_of_true hfirst (by simp)
  · next hraise =>
    simp only [Option.mem_some, forall_eq']
    apply isFirst_iff_releaseRank (fun w hw => hw) rfl
    · simp only [withRelease, releaseRank, toNat_nextWord, UInt64.size, maxWord]
      grind
    · rintro hroom w - hbehind
      simp only [withRelease, releaseRank, toNat_nextWord, UInt64.size, maxWord] at *
      grind

end Plain

/-! ### Kinds that open prereleases -/

section Opening

theorem compare_nextPre_isLE_iff {base : Version} (hbase : base.prerelease = []) :
    (compare (base.nextPre none) w).isLE = true ↔ base.releaseRank ≤ w.releaseRank := by
  have hzero : (base.nextPre none).prerelease = [.numeric 0] := by
    rw [nextPre, hbase]
    rfl
  rw [compare_isLE_iff_of_zero hzero, compareRelease_isLE_iff]
  rfl

theorem premajor_isFirst_iff :
    IsFirst (fun w => v.major < w.major) (v.increment .premajor none) ↔ v.HasRoom .premajor := by
  have hminor := v.minor.toNat_lt
  have hpatch := v.patch.toNat_lt
  simp only [HasRoom, raisedNumber?, Option.mem_some, forall_eq']
  apply isFirst_iff
  · simp only [increment, nextPre, withRelease, UInt64.lt_iff_toNat_lt, toNat_nextWord]
    omega
  · intro hroom w hw
    rw [increment, compare_nextPre_isLE_iff rfl]
    simp only [withRelease, releaseRank, toNat_nextWord, UInt64.lt_iff_toNat_lt,
      UInt64.toNat_zero, UInt64.size, maxWord] at *
    omega

theorem preminor_isFirst_iff :
    IsFirst (fun w => v.major < w.major ∨ v.major = w.major ∧ v.minor < w.minor)
      (v.increment .preminor none) ↔ v.HasRoom .preminor := by
  have hminor := v.minor.toNat_lt
  have hpatch := v.patch.toNat_lt
  simp only [HasRoom, raisedNumber?, Option.mem_some, forall_eq']
  apply isFirst_iff
  · simp only [increment, nextPre, withRelease, UInt64.lt_iff_toNat_lt, toNat_nextWord, true_and]
    omega
  · intro hroom w hw
    rw [increment, compare_nextPre_isLE_iff rfl]
    simp only [withRelease, releaseRank, toNat_nextWord, UInt64.lt_iff_toNat_lt,
      ← UInt64.toNat_inj, UInt64.toNat_zero, UInt64.size, maxWord] at *
    omega

theorem prepatch_isFirst_iff :
    IsFirst (fun w => compareRelease v w = .lt) (v.increment .prepatch none) ↔
      v.HasRoom .prepatch := by
  simp only [HasRoom, raisedNumber?, Option.mem_some, forall_eq', compareRelease_eq_lt_iff]
  apply isFirst_iff
  · simp only [increment, nextPre, withRelease, releaseRank, toNat_nextWord]
    omega
  · intro hroom w hw
    rw [increment, compare_nextPre_isLE_iff rfl]
    simp only [withRelease, releaseRank, toNat_nextWord] at *
    omega

/-- For a release the kinds `prerelease` and `prepatch` are the same. -/
theorem increment_prerelease_of_release (hrelease : v.isPrerelease = false) (name : Option Text) :
    v.increment .prerelease name = v.increment .prepatch name := by
  simp [increment, nextPatch, hrelease]

/-- The prereleases that an increment opens are those of one release, whatever their name. -/
theorem Opens.exists_base {kind : ReleaseKind} (hopens : v.Opens kind) :
    ∃ base : Version, (∀ name, v.increment kind name = base.nextPre name) ∧
      (v.HasRoom kind → compareRelease v base = .lt) := by
  have hminor := v.minor.toNat_lt
  have hpatch := v.patch.toNat_lt
  have hraised : ∀ {number}, v.raisedNumber? kind = some number → v.HasRoom kind →
      (nextWord number).toNat = number.toNat + 1 := by
    intro number hnumber hroom
    have hlimit := hroom number hnumber
    rw [toNat_nextWord]
    omega
  simp only [compareRelease_eq_lt_iff]
  obtain rfl | rfl | rfl | ⟨rfl, hrelease⟩ := hopens
  · refine ⟨v.withRelease (nextWord v.major) 0 0, fun _ => rfl, fun hroom => ?_⟩
    simp only [withRelease, releaseRank, hraised rfl hroom, UInt64.toNat_zero, UInt64.size]
    omega
  · refine ⟨v.withRelease v.major (nextWord v.minor) 0, fun _ => rfl, fun hroom => ?_⟩
    simp only [withRelease, releaseRank, hraised rfl hroom, UInt64.toNat_zero, UInt64.size]
    omega
  · refine ⟨v.withRelease v.major v.minor (nextWord v.patch), fun _ => rfl, fun hroom => ?_⟩
    simp only [withRelease, releaseRank, hraised rfl hroom]
    omega
  · have hnumber : v.raisedNumber? .prerelease = some v.patch := by simp [raisedNumber?, hrelease]
    refine ⟨v.withRelease v.major v.minor (nextWord v.patch),
      increment_prerelease_of_release hrelease, fun hroom => ?_⟩
    simp only [withRelease, releaseRank, hraised hnumber hroom]
    omega

end Opening

/-- Increments are least steps, exactly if the number that they raise is not the largest word.
The plain kinds lead to the first release with zeros behind their number, and the prerelease
kinds without a name to the first version whose numbers, as far as the kind counts them, are
greater.  A name changes neither the three numbers nor that the step leads forward. -/
theorem increments_least_steps (v : Version) :
    (∀ name : Option Text,
      (IsFirst (fun w => w.IsMajorRelease ∧ compare v w = .lt) (v.increment .major name) ↔
        v.HasRoom .major) ∧
      (IsFirst (fun w => w.IsMinorRelease ∧ compare v w = .lt) (v.increment .minor name) ↔
        v.HasRoom .minor) ∧
      (IsFirst (fun w => w.isPrerelease = false ∧ compare v w = .lt) (v.increment .patch name) ↔
        v.HasRoom .patch)) ∧
    (IsFirst (fun w => v.major < w.major) (v.increment .premajor none) ↔ v.HasRoom .premajor) ∧
    (IsFirst (fun w => v.major < w.major ∨ v.major = w.major ∧ v.minor < w.minor)
      (v.increment .preminor none) ↔ v.HasRoom .preminor) ∧
    (IsFirst (fun w => compareRelease v w = .lt) (v.increment .prepatch none) ↔
      v.HasRoom .prepatch) ∧
    (v.isPrerelease = false →
      ∀ name, v.increment .prerelease name = v.increment .prepatch name) ∧
    ∀ (kind : ReleaseKind) (name : Text), v.Opens kind → v.HasRoom kind →
      (v.increment kind (some name)).sameRelease (v.increment kind none) = true ∧
        compare v (v.increment kind (some name)) = .lt := by
  refine ⟨fun name => ⟨nextMajor_isFirst_iff, nextMinor_isFirst_iff, nextPatch_isFirst_iff⟩,
    premajor_isFirst_iff, preminor_isFirst_iff, prepatch_isFirst_iff,
    increment_prerelease_of_release, ?_⟩
  intro kind name hopens hroom
  obtain ⟨base, hbase, hbehind⟩ := hopens.exists_base
  rw [hbase, hbase]
  have hsame : compareRelease (base.nextPre (some name)) (base.nextPre none) = .eq :=
    compareRelease_eq_iff.mpr ⟨rfl, rfl, rfl⟩
  have hless : compareRelease v (base.nextPre (some name)) = .lt := hbehind hroom
  refine ⟨sameRelease_iff.mpr hsame, ?_⟩
  rw [compare_eq_then, hless]
  rfl

/-- The first release behind `1.2.3-pre` is `1.2.3`, and `2.0.0-dev.0` stands behind it too. -/
theorem increments_least_steps_sample :
    samplePrerelease.HasRoom .patch ∧
      IsFirst (fun w => w.isPrerelease = false ∧ compare samplePrerelease w = .lt)
        ⟨1, 2, 3, [], []⟩ ∧
      samplePrerelease.Opens .premajor ∧ samplePrerelease.HasRoom .premajor ∧
        compare samplePrerelease ⟨2, 0, 0, [.textual "dev".toList, .numeric 0], []⟩ = .lt := by
  obtain ⟨hplain, _, _, _, _, hnamed⟩ := increments_least_steps samplePrerelease
  have hpatch : samplePrerelease.HasRoom .patch := by decide
  have hmajor : samplePrerelease.HasRoom .premajor := by decide
  have hopens : samplePrerelease.Opens .premajor := .inl rfl
  exact ⟨hpatch, (hplain none).2.2.mpr hpatch, hopens, hmajor,
    (hnamed .premajor "dev".toList hopens hmajor).2⟩

end Version

end SemanticVersions
