import SemanticVersions.Proofs.Version.Format
import SemanticVersions.Version.Order

/-!
# Precedence as an order

Precedence is a total order up to builds: versions of one precedence are equal
but for their builds.  Nothing comes before `0.0.0-0`, so the comparator below
it holds of no version.
-/

namespace SemanticVersions.Version

open Std

/-! ### Releases -/

theorem compareRelease_eq_compareLex :
    compareRelease =
      compareLex (compareOn major) (compareLex (compareOn minor) (compareOn patch)) := rfl

instance : TransCmp compareRelease := by
  rw [compareRelease_eq_compareLex]
  infer_instance

theorem compareRelease_eq_iff {a b : Version} :
    compareRelease a b = .eq ↔ a.major = b.major ∧ a.minor = b.minor ∧ a.patch = b.patch := by
  simp only [compareRelease, Ordering.then_eq_eq, LawfulEqCmp.compare_eq_iff_eq]

theorem sameRelease_iff {a b : Version} : a.sameRelease b = true ↔ compareRelease a b = .eq := by
  simp [sameRelease]

/-! ### Prereleases -/

instance : OrientedCmp comparePrerelease where
  eq_swap {a b} := by
    match a, b with
    | [], [] => rfl
    | [], _ :: _ => rfl
    | _ :: _, [] => rfl
    | a :: restA, b :: restB =>
      have hswap : compare (a :: restA) (b :: restB) = (compare (b :: restB) (a :: restA)).swap :=
        OrientedCmp.eq_swap
      exact hswap

instance : TransCmp comparePrerelease where
  isLE_trans {a b c} hab hbc := by
    match a, b, c with
    | [], _, [] => rfl
    | _ :: _, _, [] => rfl
    | [], _ :: _, _ => cases hab
    | _, [], _ :: _ => cases hbc
    | a :: restA, b :: restB, c :: restC =>
      have hle : (compare (a :: restA) (b :: restB)).isLE →
          (compare (b :: restB) (c :: restC)).isLE → (compare (a :: restA) (c :: restC)).isLE :=
        TransCmp.isLE_trans
      exact hle hab hbc

theorem comparePrerelease_eq_iff {a b : List Identifier} :
    comparePrerelease a b = .eq ↔ a = b := by
  match a, b with
  | [], [] => simp [comparePrerelease]
  | [], _ :: _ => simp [comparePrerelease]
  | _ :: _, [] => simp [comparePrerelease]
  | a :: restA, b :: restB =>
    have heq : compare (a :: restA) (b :: restB) = .eq ↔ a :: restA = b :: restB :=
      LawfulEqCmp.compare_eq_iff_eq
    exact heq

/-! ### Versions -/

/-- Precedence compares the releases and then the prereleases. -/
theorem compare_eq_then (a b : Version) :
    compare a b = (compareRelease a b).then (comparePrerelease a.prerelease b.prerelease) := rfl

instance : TransCmp fun a b : Version => comparePrerelease a.prerelease b.prerelease where
  eq_swap {a b} := by
    have hswap : comparePrerelease a.prerelease b.prerelease =
        (comparePrerelease b.prerelease a.prerelease).swap := OrientedCmp.eq_swap
    exact hswap
  isLE_trans {a b c} := by
    have hle : (comparePrerelease a.prerelease b.prerelease).isLE →
        (comparePrerelease b.prerelease c.prerelease).isLE →
          (comparePrerelease a.prerelease c.prerelease).isLE := TransCmp.isLE_trans
    exact hle

instance : TransOrd Version :=
  inferInstanceAs (TransCmp (compareLex compareRelease
    fun a b => comparePrerelease a.prerelease b.prerelease))

/-- Versions of one precedence are equal but for their builds. -/
theorem compare_eq_iff {a b : Version} :
    compare a b = .eq ↔ a = { b with build := a.build } := by
  rw [compare_eq_then, Ordering.then_eq_eq, compareRelease_eq_iff, comparePrerelease_eq_iff]
  cases a
  cases b
  simp [and_assoc]

theorem text_eq_of_compare_eq {a b : Version} (heq : compare a b = .eq) : a.text = b.text := by
  rw [compare_eq_iff.mp heq, text_withBuild]

/-- Of versions that can be read, only those of one precedence share a canonical
text. -/
theorem text_eq_iff {a b : Version} (ha : a.WellFormed) (hb : b.WellFormed) :
    a.text = b.text ↔ compare a b = .eq := by
  constructor
  · intro htext
    have hread := read_text ha
    rw [htext, read_text hb] at hread
    have hfields := Version.mk.inj (Except.ok.inj hread)
    apply compare_eq_iff.mpr
    cases a
    cases b
    simp_all
  · exact text_eq_of_compare_eq

/-- Of several versions one is the greatest. -/
theorem exists_greatest {versions : List Version} (hne : versions ≠ []) :
    ∃ v ∈ versions, ∀ w ∈ versions, (compare w v).isLE = true := by
  induction versions with
  | nil => exact absurd rfl hne
  | cons first others ih =>
    have hself : (compare first first).isLE = true := ReflCmp.isLE_rfl
    by_cases hothers : others = []
    · exact ⟨first, by simp, by simp [hothers]⟩
    obtain ⟨v, hv, hgreatest⟩ := ih hothers
    cases hle : (compare first v).isLE with
    | true =>
      refine ⟨v, by simp [hv], fun w hw => ?_⟩
      rcases List.mem_cons.mp hw with rfl | hw
      · exact hle
      · exact hgreatest w hw
    | false =>
      have habove : (compare v first).isLE = true := by
        rw [← OrientedCmp.isGE_iff_isLE]
        cases hcompare : compare first v <;> simp_all
      refine ⟨first, by simp, fun w hw => ?_⟩
      rcases List.mem_cons.mp hw with rfl | hw
      · exact hself
      · exact TransCmp.isLE_trans (hgreatest w hw) habove

/-! ### The least version -/

theorem then_ne_lt {first second : Ordering} (hfirst : first ≠ .lt) (hsecond : second ≠ .lt) :
    first.then second ≠ .lt := by
  cases first with
  | lt => exact absurd rfl hfirst
  | eq => exact hsecond
  | gt => simp

theorem compare_zero_ne_lt (n : UInt64) : compare n 0 ≠ .lt := by
  rw [Ne, Std.compare_eq_lt]
  exact UInt64.not_lt_zero

/-- No prerelease comes before the single identifier `0`. -/
theorem comparePrerelease_zero_ne_lt (ids : List Identifier) :
    comparePrerelease ids [.numeric 0] ≠ .lt := by
  cases ids with
  | nil => simp [comparePrerelease]
  | cons id rest =>
    have hid : compare id (.numeric 0) ≠ .lt := by
      cases id with
      | numeric n =>
        rw [Identifier.compare_numeric]
        exact compare_zero_ne_lt n
      | textual text => simp [Identifier.compare_textual_numeric]
    have hrest : compare rest [] ≠ .lt := by
      cases rest <;> simp [List.compareLex_nil_nil, List.compareLex_cons_nil, compare]
    have hcons : compare (id :: rest) [.numeric 0] =
        (compare id (.numeric 0)).then (compare rest []) := List.compareLex_cons_cons
    change compare (id :: rest) [.numeric 0] ≠ .lt
    rw [hcons]
    exact then_ne_lt hid hrest

/-- No version comes before `0.0.0-0`. -/
theorem compare_least_ne_lt (v : Version) (build : List Text) :
    compare v ⟨0, 0, 0, [.numeric 0], build⟩ ≠ .lt := by
  rw [compare_eq_then]
  apply then_ne_lt
  · apply then_ne_lt (compare_zero_ne_lt v.major)
    exact then_ne_lt (compare_zero_ne_lt v.minor) (compare_zero_ne_lt v.patch)
  · exact comparePrerelease_zero_ne_lt v.prerelease

/-- Each prerelease stands before its release. -/
theorem comparePrerelease_nil_eq_lt_iff {ids : List Identifier} :
    comparePrerelease ids [] = .lt ↔ ids ≠ [] := by
  cases ids <;> simp [comparePrerelease]

/-- Only its own prereleases come before the release `0.0.0`. -/
theorem compare_zero_eq_lt_iff {v : Version} {build : List Text} :
    compare v ⟨0, 0, 0, [], build⟩ = .lt ↔
      v.isPrerelease = true ∧ v.major = 0 ∧ v.minor = 0 ∧ v.patch = 0 := by
  have hrelease : compareRelease v ⟨0, 0, 0, [], build⟩ ≠ .lt :=
    then_ne_lt (compare_zero_ne_lt v.major)
      (then_ne_lt (compare_zero_ne_lt v.minor) (compare_zero_ne_lt v.patch))
  have hprerelease : v.isPrerelease = true ↔ v.prerelease ≠ [] := by simp [isPrerelease]
  rw [compare_eq_then, Ordering.then_eq_lt, compareRelease_eq_iff,
    comparePrerelease_nil_eq_lt_iff, hprerelease]
  simp only [hrelease, false_or]
  exact And.comm

/-- The version `1.2.3-pre`. -/
def samplePrerelease : Version where
  major := 1
  minor := 2
  patch := 3
  prerelease := [.textual ['p', 'r', 'e']]

end SemanticVersions.Version
