import SemanticVersions.Operator
import SemanticVersions.Proofs.Text.Encoding
import SemanticVersions.Proofs.Version.Precedence

/-!
# Precedence by the first difference

Two versions are compared by the first part in which they differ: their numbers from the
left, and then the identifiers of their prereleases.  A release stands behind all its
prereleases, and identifiers stand before their extensions.  Where no part differs the
versions are the same, whatever their builds; for versions that were read this is the case
exactly if their canonical texts are equal.
-/

namespace SemanticVersions

open Std

/-! ### Identifiers -/

namespace Identifier

/-- Whether an identifier stands before another one: numbers by value, before all texts, and
texts by their bytes. -/
inductive Before : Identifier → Identifier → Prop
  | numbers {m n : UInt64} (hless : m < n) : Before (numeric m) (numeric n)
  | number_text (n : UInt64) (text : Text) : Before (numeric n) (textual text)
  | texts {s t : Text} (hless : compare (encode s) (encode t) = .lt) :
      Before (textual s) (textual t)

theorem compare_eq_lt_iff_before {a b : Identifier} : compare a b = .lt ↔ a.Before b := by
  cases a with
  | numeric m =>
    cases b with
    | numeric n =>
      rw [compare_numeric, Std.compare_eq_lt]
      exact ⟨.numbers, fun | .numbers hless => hless⟩
    | textual t => exact ⟨fun _ => .number_text m t, fun _ => compare_numeric_textual m t⟩
  | textual s =>
    cases b with
    | numeric n =>
      constructor
      · intro hless
        cases hless
      · intro hbefore
        cases hbefore
    | textual t =>
      rw [compare_textual, ← compare_encode]
      exact ⟨.texts, fun | .texts hless => hless⟩

theorem hashItems_inj {a b : List Identifier} :
    a.flatMap hashItems = b.flatMap hashItems ↔ a = b := by
  induction a generalizing b with
  | nil =>
    cases b with
    | nil => simp
    | cons y b => cases y <;> simp [hashItems]
  | cons x a ih =>
    cases b with
    | nil => cases x <;> simp [hashItems]
    | cons y b => cases x <;> cases y <;> simp [hashItems, ih]

end Identifier

/-- Lists are compared by the first items that differ, or by their lengths if the items of
the shorter one all begin the longer one. -/
theorem compare_list_eq_lt_iff {α : Type} [Ord α] [LawfulEqOrd α] {a b : List α} :
    compare a b = .lt ↔
      (∃ common x y restA restB, a = common ++ x :: restA ∧ b = common ++ y :: restB ∧
        compare x y = .lt) ∨ ∃ x rest, b = a ++ x :: rest := by
  induction a generalizing b with
  | nil =>
    cases b with
    | nil => simp
    | cons y b => simp [List.compare_nil_cons]
  | cons x a ih =>
    cases b with
    | nil => simp [List.compare_cons_nil]
    | cons y b =>
      rw [List.compare_cons_cons, Ordering.then_eq_lt, LawfulEqCmp.compare_eq_iff_eq, ih]
      constructor
      · rintro (hless | ⟨rfl, ⟨common, x', y', restA, restB, rfl, rfl, hless⟩ | ⟨y', rest, rfl⟩⟩)
        · exact .inl ⟨[], x, y, a, b, rfl, rfl, hless⟩
        · exact .inl ⟨x :: common, x', y', restA, restB, rfl, rfl, hless⟩
        · exact .inr ⟨y', rest, rfl⟩
      · rintro (⟨common, x', y', restA, restB, ha, hb, hless⟩ | ⟨y', rest, hb⟩)
        · cases common with
          | nil =>
            cases ha
            cases hb
            exact .inl hless
          | cons first common =>
            cases ha
            cases hb
            exact .inr ⟨rfl, .inl ⟨common, x', y', restA, restB, rfl, rfl, hless⟩⟩
        · cases hb
          exact .inr ⟨rfl, .inr ⟨y', rest, rfl⟩⟩

namespace Version

/-! ### Prereleases -/

/-- Whether a prerelease stands before another one of the same release, where the empty list
marks the release itself. -/
inductive PrereleaseBefore : List Identifier → List Identifier → Prop
  | release {ids : List Identifier} (hids : ids ≠ []) : PrereleaseBefore ids []
  | differ (common : List Identifier) {a b : Identifier} (restA restB : List Identifier)
      (hbefore : a.Before b) : PrereleaseBefore (common ++ a :: restA) (common ++ b :: restB)
  | extended {ids : List Identifier} (hids : ids ≠ []) (id : Identifier)
      (rest : List Identifier) : PrereleaseBefore ids (ids ++ id :: rest)

theorem comparePrerelease_of_ne_nil {a b : List Identifier} (ha : a ≠ []) (hb : b ≠ []) :
    comparePrerelease a b = compare a b := by
  obtain ⟨x, restA, rfl⟩ := List.exists_cons_of_ne_nil ha
  obtain ⟨y, restB, rfl⟩ := List.exists_cons_of_ne_nil hb
  rfl

/-- Prereleases are compared by their first difference. -/
theorem comparePrerelease_eq_lt_iff {a b : List Identifier} :
    comparePrerelease a b = .lt ↔ PrereleaseBefore a b := by
  constructor
  · intro hless
    by_cases hb : b = []
    · rw [hb] at hless ⊢
      exact .release (comparePrerelease_nil_eq_lt_iff.mp hless)
    have ha : a ≠ [] := by
      rintro rfl
      obtain ⟨y, restB, rfl⟩ := List.exists_cons_of_ne_nil hb
      cases hless
    rw [comparePrerelease_of_ne_nil ha hb, compare_list_eq_lt_iff] at hless
    rcases hless with ⟨common, x, y, restA, restB, rfl, rfl, hless⟩ | ⟨y, rest, rfl⟩
    · exact .differ common restA restB (Identifier.compare_eq_lt_iff_before.mp hless)
    · exact .extended ha y rest
  · intro hbefore
    cases hbefore with
    | release hids => exact comparePrerelease_nil_eq_lt_iff.mpr hids
    | differ common restA restB hbefore =>
      rw [comparePrerelease_of_ne_nil (by simp) (by simp), compare_list_eq_lt_iff]
      exact .inl ⟨common, _, _, restA, restB, rfl, rfl,
        Identifier.compare_eq_lt_iff_before.mpr hbefore⟩
    | extended hids id rest =>
      rw [comparePrerelease_of_ne_nil hids (by simp), compare_list_eq_lt_iff]
      exact .inr ⟨id, rest, rfl⟩

/-! ### Versions -/

/-- Whether two versions agree in all but their builds. -/
def SameParts (a b : Version) : Prop :=
  a.major = b.major ∧ a.minor = b.minor ∧ a.patch = b.patch ∧ a.prerelease = b.prerelease

/-- Whether a version stands before another one: by the first number that differs, or by
prerelease if all three are equal. -/
def Before (a b : Version) : Prop :=
  a.major < b.major ∨ a.major = b.major ∧ (a.minor < b.minor ∨ a.minor = b.minor ∧
    (a.patch < b.patch ∨ a.patch = b.patch ∧ PrereleaseBefore a.prerelease b.prerelease))

theorem compare_eq_lt_iff_before {a b : Version} : compare a b = .lt ↔ a.Before b := by
  simp only [compare_eq_then, compareRelease, Ordering.then_eq_lt, Ordering.then_eq_eq,
    Std.compare_eq_lt, LawfulEqCmp.compare_eq_iff_eq, comparePrerelease_eq_lt_iff, Before]
  grind

/-- Versions of one precedence agree in all but their builds. -/
theorem compare_eq_iff_sameParts {a b : Version} : compare a b = .eq ↔ a.SameParts b := by
  rw [compare_eq_then, Ordering.then_eq_eq, compareRelease_eq_iff, comparePrerelease_eq_iff,
    SameParts]
  simp only [and_assoc]

theorem isSame_iff {a b : Version} : a.isSame b = true ↔ compare a b = .eq := by
  rw [isSame, beq_iff_eq]

/-- Versions are hashed alike exactly if they agree in all but their builds. -/
theorem hashItems_eq_iff {a b : Version} : a.hashItems = b.hashItems ↔ a.SameParts b := by
  simp only [hashItems, List.cons.injEq, HashItem.word.injEq, HashItem.length.injEq,
    Identifier.hashItems_inj, SameParts]
  constructor
  · rintro ⟨hmajor, hminor, hpatch, _, hids⟩
    exact ⟨hmajor, hminor, hpatch, hids⟩
  · rintro ⟨hmajor, hminor, hpatch, hids⟩
    exact ⟨hmajor, hminor, hpatch, congrArg List.length hids, hids⟩

section Read

variable {sourceA sourceB : Text} {a b : Version} (ha : read sourceA = .ok a)
  (hb : read sourceB = .ok b)

include ha hb

/-- Versions that were read are the same exactly if their canonical texts are equal. -/
theorem isSame_iff_text_eq : a.isSame b = true ↔ a.text = b.text := by
  rw [isSame_iff, text_eq_iff (wellFormed_of_read ha) (wellFormed_of_read hb)]

theorem equal_holds_eq_identical_holds :
    Operator.equal.holds a b = Operator.identical.holds a b := by
  have htext : (compare a b).isEq = true ↔ a.text = b.text := by
    rw [← isSame_iff_text_eq ha hb, isSame_iff, Ordering.isEq_iff_eq_eq]
  rw [Bool.eq_iff_iff, Operator.holds, Operator.holds, htext, beq_iff_eq]

theorem notEqual_holds_eq_different_holds :
    Operator.notEqual.holds a b = Operator.different.holds a b := by
  have hne : Operator.notEqual.holds a b = !Operator.equal.holds a b := by
    cases hcompare : compare a b <;> simp [Operator.holds, hcompare]
  have hdifferent : Operator.different.holds a b = !Operator.identical.holds a b := rfl
  rw [hne, hdifferent, equal_holds_eq_identical_holds ha hb]

end Read

/-- Precedence is a total order, decided by the first part in which two versions differ.
Versions of which no part differs have one precedence, are the same and are hashed alike,
whatever their builds.  Versions that were read are the same exactly if their canonical
texts are equal, so the operators on precedence and on texts agree on them. -/
theorem precedence_decided_by_first_difference :
    (∀ a : Version, compare a a = .eq) ∧
      (∀ a b : Version, compare b a = (compare a b).swap) ∧
      (∀ a b c : Version, (compare a b).isLE = true → (compare b c).isLE = true →
        (compare a c).isLE = true) ∧
      (∀ a b : Version, (compare a b = .lt ↔ a.Before b) ∧ (compare a b = .eq ↔ a.SameParts b) ∧
        (a.isSame b = true ↔ a.SameParts b) ∧ (a.hashItems = b.hashItems ↔ a.SameParts b)) ∧
      ∀ (sourceA sourceB : Text) (a b : Version), read sourceA = .ok a → read sourceB = .ok b →
        (a.isSame b = true ↔ a.text = b.text) ∧
          Operator.equal.holds a b = Operator.identical.holds a b ∧
            Operator.notEqual.holds a b = Operator.different.holds a b := by
  refine ⟨fun a => ReflCmp.compare_self, fun a b => OrientedCmp.eq_swap,
    fun a b c => TransCmp.isLE_trans, fun a b => ⟨compare_eq_lt_iff_before,
      compare_eq_iff_sameParts, ?_, hashItems_eq_iff⟩, ?_⟩
  · rw [isSame_iff, compare_eq_iff_sameParts]
  · intro sourceA sourceB a b ha hb
    exact ⟨isSame_iff_text_eq ha hb, equal_holds_eq_identical_holds ha hb,
      notEqual_holds_eq_different_holds ha hb⟩

/-- The version `1.2.3-pre` has one canonical text with all builds, and it stands between
`0.0.0-0` and its release. -/
theorem precedence_decided_by_first_difference_builds :
    (∃ a b, read "1.2.3-pre+a".toList = .ok a ∧ read "v1.2.3-pre+b".toList = .ok b ∧
      a.SameParts b ∧ a.text = b.text) ∧
      (compare (⟨0, 0, 0, [.numeric 0], []⟩ : Version) ⟨1, 2, 3, [], []⟩).isLE = true := by
  have ha : read "1.2.3-pre+a".toList = .ok { samplePrerelease with build := [['a']] } :=
    read_eq_ok_iff.mpr ⟨by decide, .inl (by decide)⟩
  have hb : read "v1.2.3-pre+b".toList = .ok { samplePrerelease with build := [['b']] } :=
    read_eq_ok_iff.mpr ⟨by decide, .inr (by decide)⟩
  obtain ⟨_, _, htrans, hparts, htexts⟩ := precedence_decided_by_first_difference
  have hsame : SameParts { samplePrerelease with build := [['a']] }
      { samplePrerelease with build := [['b']] } := ⟨rfl, rfl, rfl, rfl⟩
  have hisSame := (hparts _ _).2.2.1.mpr hsame
  exact ⟨⟨_, _, ha, hb, hsame, (htexts _ _ _ _ ha hb).1.mp hisSame⟩,
    htrans _ samplePrerelease _ (by decide) (by decide)⟩

end Version

end SemanticVersions
