import SemanticVersions.Proofs.Range.Leading

/-!
# Tildes

A tilde keeps the major and the minor number of its version, or the major number where no other
is given.  It accepts the releases from the given version on that begin with these numbers, and
of the prereleases those of the given release, if a prerelease is given.
-/

namespace SemanticVersions

open Std

namespace Partial

/-- The numbers that a tilde keeps: those up to the minor number. -/
def pinned : Partial → Partial
  | any => any
  | major M => major M
  | minor M m => minor M m
  | full M m _ _ => minor M m

/-- Whether a release is on the line of a partial version, of which `base` is the least. -/
def IsOnLine (version : Partial) (base v : Version) : Prop :=
  match version with
  | any => True
  | major M => v.major.toNat = M
  | minor M m => v.major.toNat = M ∧ v.minor.toNat = m
  | full M m _ _ => (compare base v).isLE = true ∧ v.major.toNat = M ∧ v.minor.toNat = m

/-- A tilde keeps leading numbers of its version. -/
theorem pinned_numbers_prefix (version : Partial) :
    version.pinned.numbers <+: version.numbers := by
  cases version with
  | any => exact List.prefix_rfl
  | major M => exact List.prefix_rfl
  | minor M m => exact List.prefix_rfl
  | full M m p prerelease => exact ⟨[p], rfl⟩

theorem pinned_ne_any {version : Partial} (hversion : version ≠ any) : version.pinned ≠ any := by
  cases version with
  | any => exact absurd rfl hversion
  | major M => simp [pinned]
  | minor M m => simp [pinned]
  | full M m p prerelease => simp [pinned]

/-- The releases on the line are those from the given version on that begin with the pinned
numbers. -/
theorem isOnLine_iff {version : Partial} {base v : Version} (hbase : version.floor? = some base)
    (hv : v.isPrerelease = false) (hversion : version ≠ any) :
    (compare base v).isLE = true ∧ (v.compareLeading version.pinned).isLE = true ↔
      version.IsOnLine base v := by
  have hfloor : (compare base v).isLE = true ↔ (v.compareLeading version).isGE = true :=
    (Version.compare_isLE_iff_of_release hv).trans (compareRelease_floor?_isLE_iff hbase v)
  cases version with
  | any => exact absurd rfl hversion
  | major M =>
    simp only [hfloor, IsOnLine, pinned, Version.compareLeading_major, Nat.isGE_compare,
      Nat.isLE_compare]
    omega
  | minor M m =>
    simp only [hfloor, IsOnLine, pinned, Version.compareLeading_minor, isGE_then_iff_or,
      Ordering.isLE_then_iff_or, Nat.isGE_compare, Nat.isLE_compare, Nat.compare_eq_lt,
      Nat.compare_eq_eq, Nat.compare_eq_gt]
    omega
  | full M m p prerelease =>
    simp only [hfloor, IsOnLine, pinned, Version.compareLeading_minor, Version.compareLeading_full,
      isGE_then_iff_or, Ordering.isLE_then_iff_or, Nat.isGE_compare, Nat.isLE_compare,
      Nat.compare_eq_lt, Nat.compare_eq_eq, Nat.compare_eq_gt]
    omega

/-- A tilde is written out as an interval, if the last number it keeps can be raised. -/
theorem tildeBounds?_eq {text : Text} {version : Partial} {base : Version}
    (hread : read? text = some version) (hbase : version.floor? = some base)
    (hversion : version ≠ any) :
    Shorthand.tildeBounds? version =
      version.pinned.after?.map fun release => Bound.interval (some base) (some release) := by
  have hlower := ofVersion_floor? hread hbase .greaterEqual
  have hfits := (floor?_eq_some_iff.mp hbase).1
  cases version with
  | any => exact absurd rfl hversion
  | major M => exact bind_next?_interval [] rfl (List.forall_mem_nil _) hlower.symm
  | minor M m =>
    have hfront : ∀ n ∈ [M], n ≤ maxWord := by simpa using hfits M (by simp [numbers])
    exact bind_next?_interval [M] rfl hfront hlower.symm
  | full M m p prerelease =>
    have hfront : ∀ n ∈ [M], n ≤ maxWord := by simpa using hfits M (by simp [numbers])
    exact bind_next?_interval [M] rfl hfront hlower.symm

/-- A tilde has bounds exactly if the last number that it keeps can be raised. -/
theorem tildeBounds?_cases {text : Text} {version : Partial} {base : Version}
    (hread : read? text = some version) (hbase : version.floor? = some base) :
    version.pinned.numbers.getLast? = some maxWord ∧ Shorthand.tildeBounds? version = none ∨
      version.pinned.numbers.getLast? ≠ some maxWord ∧
        ∃ lower upper, Shorthand.tildeBounds? version = some (Bound.interval lower upper) ∧
          (∀ base ∈ lower, base.WellFormed) ∧ ∀ v : Version, v.IsWithin lower upper ↔
            if v.isPrerelease = true then
              version.isFull = true ∧ base.isPrerelease = true ∧ base.sameRelease v = true ∧
                (compare base v).isLE = true
            else
              version.IsOnLine base v := by
  refine partBounds_cases version.pinned_numbers_prefix hbase hread ?_ fun hversion =>
    ⟨pinned_ne_any hversion, tildeBounds?_eq hread hbase hversion, fun v hv =>
      isOnLine_iff hbase hv hversion⟩
  rintro rfl
  exact ⟨rfl, rfl, fun _ => trivial⟩

end Partial

namespace Range

/-- A tilde, with or without `>` behind it, is refused exactly if the last number that it keeps
cannot be raised, and then the error names the token.  Else it accepts the releases on the line
of its version, and of the prereleases those of the given release from the given prerelease
on. -/
theorem tilde_accepts_line {sign text : Text} (hsign : sign = ['~'] ∨ sign = ['~', '>'])
    (hblank : ∀ c ∈ text, isBlank c = false) {version : Partial}
    (hversion : Partial.read? text = some version) {base : Version}
    (hbase : version.floor? = some base) :
    (∀ error, read (sign ++ text) = .error error ↔
        error = .invalidComparator (sign ++ text) ∧
          version.pinned.numbers.getLast? = some maxWord) ∧
      (version.pinned.numbers.getLast? ≠ some maxWord →
        ∃ range, read (sign ++ text) = .ok range ∧ ∀ v : Version,
          (v.isPrerelease = false → (range.test v = true ↔ version.IsOnLine base v)) ∧
            (v.isPrerelease = true → (range.test v = true ↔
              version.isFull = true ∧ base.isPrerelease = true ∧ base.sameRelease v = true ∧
                (compare base v).isLE = true))) := by
  have htoken : ∀ c ∈ sign ++ text, isBlank c = false := by
    rw [List.forall_mem_append]
    refine ⟨?_, hblank⟩
    rcases hsign with rfl | rfl <;> exact not_isBlank_of_all (by decide)
  have hshorthand := Shorthand.read?_eq_tilde hsign hversion
  obtain ⟨herror, haccepts⟩ :=
    read_shorthand_iff htoken hshorthand (Partial.tildeBounds?_cases hversion hbase)
  refine ⟨herror, fun hpinned => ?_⟩
  obtain ⟨range, hread, htest⟩ := haccepts hpinned
  refine ⟨range, hread, fun v => ⟨fun hv => ?_, fun hv => ?_⟩⟩
  · rw [htest, if_neg (by simp [hv])]
  · rw [htest, if_pos hv]

/-- `~>1.2.3-pre` accepts `1.2.9` and the given prerelease, and not `1.3.0`. -/
theorem tilde_accepts_line_sample :
    let text := ['1', '.', '2', '.', '3', '-', 'p', 'r', 'e']
    let version := Partial.full 1 2 3 [['p', 'r', 'e']]
    (∀ c ∈ text, isBlank c = false) ∧ Partial.read? text = some version ∧
      version.floor? = some Version.samplePrerelease ∧
        ∃ range, read (['~', '>'] ++ text) = .ok range ∧ range.test ⟨1, 2, 9, [], []⟩ = true ∧
          range.test ⟨1, 3, 0, [], []⟩ = false ∧ range.test Version.samplePrerelease = true := by
  intro text version
  have hblank : ∀ c ∈ text, isBlank c = false := not_isBlank_of_all (by decide)
  have hversion : Partial.read? text = some version := by decide
  have hbase : version.floor? = some Version.samplePrerelease := by decide
  obtain ⟨range, hread, haccepts⟩ :=
    (tilde_accepts_line (.inr rfl) hblank hversion hbase).2 (by decide)
  refine ⟨hblank, hversion, hbase, range, hread, ?_, ?_, ?_⟩
  · rw [(haccepts _).1 rfl]
    exact ⟨by decide, by decide, by decide⟩
  · rw [← Bool.not_eq_true, (haccepts _).1 rfl]
    rintro ⟨_, _, hminor⟩
    revert hminor
    decide
  · rw [(haccepts _).2 rfl]
    decide

end Range

end SemanticVersions
