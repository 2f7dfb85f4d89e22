import SemanticVersions.Proofs.Range.Leading

/-!
# Carets

A caret keeps the numbers of its version up to the first that is not zero.  It accepts the
releases from the given version on that begin with these numbers, and of the prereleases those
of the given release, if a prerelease is given.
-/

namespace SemanticVersions

open Std

namespace Partial

/-- The numbers that a caret keeps: those up to the first that is not zero, or all that are
given. -/
def kept : Partial → Partial
  | any => any
  | major M => major M
  | minor M m => if M = 0 then minor M m else major M
  | full M m p prerelease =>
    if M = 0 then
      if m = 0 then full M m p prerelease else minor M m
    else
      major M

/-- Whether a release is compatible with a partial version, of which `base` is the least. -/
def IsCompatible (version : Partial) (base v : Version) : Prop :=
  match version with
  | any => True
  | major M => v.major.toNat = M
  | minor M m =>
    if M = 0 then
      v.major.toNat = 0 ∧ v.minor.toNat = m
    else
      v.major.toNat = M ∧ m ≤ v.minor.toNat
  | full M m p _ =>
    (compare base v).isLE = true ∧
      if M = 0 then
        if m = 0 then
          v.major.toNat = 0 ∧ v.minor.toNat = 0 ∧ v.patch.toNat = p
        else
          v.major.toNat = 0 ∧ v.minor.toNat = m
      else
        v.major.toNat = M

/-- A caret keeps leading numbers of its version. -/
theorem kept_numbers_prefix (version : Partial) : version.kept.numbers <+: version.numbers := by
  cases version with
  | any => exact List.prefix_rfl
  | major M => exact List.prefix_rfl
  | minor M m =>
    simp only [kept]
    split
    · exact List.prefix_rfl
    · exact ⟨[m], rfl⟩
  | full M m p prerelease =>
    simp only [kept]
    split
    · split
      · exact List.prefix_rfl
      · exact ⟨[p], rfl⟩
    · exact ⟨[m, p], rfl⟩

theorem kept_ne_any {version : Partial} (hversion : version ≠ any) : version.kept ≠ any := by
  cases version with
  | any => exact absurd rfl hversion
  | major M => simp [kept]
  | minor M m =>
    simp only [kept]
    split <;> simp
  | full M m p prerelease =>
    simp only [kept]
    split
    · split <;> simp
    · simp

/-- The compatible releases are those from the given version on that begin with the kept
numbers. -/
theorem isCompatible_iff {version : Partial} {base v : Version}
    (hbase : version.floor? = some base) (hv : v.isPrerelease = false) (hversion : version ≠ any) :
    (compare base v).isLE = true ∧ (v.compareLeading version.kept).isLE = true ↔
      version.IsCompatible base v := by
  have hfloor : (compare base v).isLE = true ↔ (v.compareLeading version).isGE = true :=
    (Version.compare_isLE_iff_of_release hv).trans (compareRelease_floor?_isLE_iff hbase v)
  cases version with
  | any => exact absurd rfl hversion
  | major M =>
    simp only [hfloor, IsCompatible, kept, Version.compareLeading_major, Nat.isGE_compare,
      Nat.isLE_compare]
    omega
  | minor M m =>
    simp only [hfloor, IsCompatible, kept]
    split <;>
      simp only [Version.compareLeading_major, Version.compareLeading_minor, isGE_then_iff_or,
        Ordering.isLE_then_iff_or, Nat.isGE_compare, Nat.isLE_compare, Nat.compare_eq_lt,
        Nat.compare_eq_eq, Nat.compare_eq_gt] <;>
      omega
  | full M m p prerelease =>
    simp only [hfloor, IsCompatible, kept]
    split
    · split <;>
        simp only [Version.compareLeading_minor, Version.compareLeading_full, isGE_then_iff_or,
          Ordering.isLE_then_iff_or, Nat.isGE_compare, Nat.isLE_compare, Nat.compare_eq_lt,
          Nat.compare_eq_eq, Nat.compare_eq_gt] <;>
        omega
    · simp only [Version.compareLeading_major, Version.compareLeading_full, isGE_then_iff_or,
        Nat.isGE_compare, Nat.isLE_compare, Nat.compare_eq_eq, Nat.compare_eq_gt]
      omega

/-- A caret is written out as an interval, if the last number it keeps can be raised. -/
theorem caretBounds?_eq {text : Text} {version : Partial} {base : Version}
    (hread : read? text = some version) (hbase : version.floor? = some base)
    (hversion : version ≠ any) :
    Shorthand.caretBounds? version =
      version.kept.after?.map fun release => Bound.interval (some base) (some release) := by
  have hlower := ofVersion_floor? hread hbase .greaterEqual
  have hfits := (floor?_eq_some_iff.mp hbase).1
  cases version with
  | any => exact absurd rfl hversion
  | major M =>
    exact bind_next?_interval [] rfl (List.forall_mem_nil _) hlower.symm
  | minor M m =>
    simp only [Shorthand.caretBounds?, kept]
    split
    · have hfront : ∀ n ∈ [M], n ≤ maxWord := by simpa using hfits M (by simp [numbers])
      exact bind_next?_interval [M] rfl hfront hlower.symm
    · exact bind_next?_interval [] rfl (List.forall_mem_nil _) hlower.symm
  | full M m p prerelease =>
    simp only [Shorthand.caretBounds?, kept]
    split
    · split
      · have hfront : ∀ n ∈ [M, m], n ≤ maxWord := by
          simp only [numbers, List.forall_mem_cons] at hfits ⊢
          exact ⟨hfits.1, hfits.2.1, List.forall_mem_nil _⟩
        exact bind_next?_interval [M, m] rfl hfront hlower.symm
      · have hfront : ∀ n ∈ [M], n ≤ maxWord := by simpa using hfits M (by simp [numbers])
        exact bind_next?_interval [M] rfl hfront hlower.symm
    · exact bind_next?_interval [] rfl (List.forall_mem_nil _) hlower.symm

/-- A caret has bounds exactly if the last number that it keeps can be raised. -/
theorem caretBounds?_cases {text : Text} {version : Partial} {base : Version}
    (hread : read? text = some version) (hbase : version.floor? = some base) :
    version.kept.numbers.getLast? = some maxWord ∧ Shorthand.caretBounds? version = none ∨
      version.kept.numbers.getLast? ≠ some maxWord ∧
        ∃ lower upper, Shorthand.caretBounds? version = some (Bound.interval lower upper) ∧
          (∀ base ∈ lower, base.WellFormed) ∧ ∀ v : Version, v.IsWithin lower upper ↔
            if v.isPrerelease = true then
              version.isFull = true ∧ base.isPrerelease = true ∧ base.sameRelease v = true ∧
                (compare base v).isLE = true
            else
              version.IsCompatible base v := by
  refine partBounds_cases version.kept_numbers_prefix hbase hread ?_ fun hversion =>
    ⟨kept_ne_any hversion, caretBounds?_eq hread hbase hversion, fun v hv =>
      isCompatible_iff hbase hv hversion⟩
  rintro rfl
  exact ⟨rfl, rfl, fun _ => trivial⟩

end Partial

namespace Range

/-- A caret is refused exactly if the last number that it keeps cannot be raised, and then the
error names the token.  Else it accepts the compatible releases, and of the prereleases those of
the given release from the given prerelease on. -/
theorem caret_accepts_compatible {text : Text} (hblank : ∀ c ∈ text, isBlank c = false)
    {version : Partial} (hversion : Partial.read? text = some version) {base : Version}
    (hbase : version.floor? = some base) :
    (∀ error, read ('^' :: text) = .error error ↔
        error = .invalidComparator ('^' :: text) ∧
          version.kept.numbers.getLast? = some maxWord) ∧
      (version.kept.numbers.getLast? ≠ some maxWord →
        ∃ range, read ('^' :: text) = .ok range ∧ ∀ v : Version,
          (v.isPrerelease = false → (range.test v = true ↔ version.IsCompatible base v)) ∧
            (v.isPrerelease = true → (range.test v = true ↔
              version.isFull = true ∧ base.isPrerelease = true ∧ base.sameRelease v = true ∧
                (compare base v).isLE = true))) := by
  have htoken : ∀ c ∈ '^' :: text, isBlank c = false :=
    List.forall_mem_cons.mpr ⟨by decide, hblank⟩
  have hshorthand : Shorthand.read? ('^' :: text) = some (.caret version) := by
    rw [Shorthand.read?, hversion]
    rfl
  obtain ⟨herror, haccepts⟩ :=
    read_shorthand_iff htoken hshorthand (Partial.caretBounds?_cases hversion hbase)
  refine ⟨herror, fun hkept => ?_⟩
  obtain ⟨range, hread, htest⟩ := haccepts hkept
  refine ⟨range, hread, fun v => ⟨fun hv => ?_, fun hv => ?_⟩⟩
  · rw [htest, if_neg (by simp [hv])]
  · rw [htest, if_pos hv]

/-- `^1.2.3-pre` accepts `1.9.0` and the given prerelease, and not `2.0.0`. -/
theorem caret_accepts_compatible_sample :
    let text := ['1', '.', '2', '.', '3', '-', 'p', 'r', 'e']
    let version := Partial.full 1 2 3 [['p', 'r', 'e']]
    (∀ c ∈ text, isBlank c = false) ∧ Partial.read? text = some version ∧
      version.floor? = some Version.samplePrerelease ∧
        ∃ range, read ('^' :: text) = .ok range ∧ range.test ⟨1, 9, 0, [], []⟩ = true ∧
          range.test ⟨2, 0, 0, [], []⟩ = false ∧ range.test Version.samplePrerelease = true := by
  intro text version
  have hblank : ∀ c ∈ text, isBlank c = false := by
    have hall : text.all (!isBlank ·) = true := by decide
    simpa using hall
  have hversion : Partial.read? text = some version := by decide
  have hbase : version.floor? = some Version.samplePrerelease := by decide
  obtain ⟨range, hread, haccepts⟩ :=
    (caret_accepts_compatible hblank hversion hbase).2 (by decide)
  refine ⟨hblank, hversion, hbase, range, hread, ?_, ?_, ?_⟩
  · rw [(haccepts _).1 rfl]
    exact ⟨by decide, by decide⟩
  · rw [← Bool.not_eq_true, (haccepts _).1 rfl]
    rintro ⟨_, hmajor⟩
    revert hmajor
    decide
  · rw [(haccepts _).2 rfl]
    decide

end Range

end SemanticVersions
