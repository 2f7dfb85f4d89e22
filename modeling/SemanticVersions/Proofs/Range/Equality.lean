import SemanticVersions.Proofs.Range.Stability

/-!
# Ranges that compare equal

Ranges are compared by their canonical texts.  A canonical text is cut back into
the texts of its comparators, and each of these tells its comparator up to the
build of a version.  No answer of a range depends on a build, so ranges that
compare equal cannot be told apart by any version or by any other range.
-/

namespace SemanticVersions

/-! ### Builds do not count -/

theorem Operator.holds_withoutBuild (operator : Operator) (v a : Version) :
    operator.holds v { a with build := [] } = operator.holds v a := by
  cases operator <;> rfl

namespace Comparator

theorem test_withoutBuild (c : Comparator) (v : Version) : c.withoutBuild.test v = c.test v := by
  cases c with
  | any => rfl
  | bound operator version => exact operator.holds_withoutBuild v version

theorem admits_withoutBuild (c : Comparator) (v : Version) :
    admits v c.withoutBuild = admits v c := by
  cases c <;> rfl

theorem testAll_map_withoutBuild (comparators : List Comparator) (v : Version) :
    testAll (comparators.map withoutBuild) v = testAll comparators v := by
  simp only [testAll, List.all_map, List.any_map, Function.comp_def, test_withoutBuild,
    admits_withoutBuild]

theorem intersects_withoutBuild (c d : Comparator) :
    c.withoutBuild.intersects d.withoutBuild = c.intersects d := by
  -- An equality asks the other comparator about its version, and bounds compare their
  -- versions and texts; none of this looks at a build.
  cases c with
  | any => rfl
  | bound operatorA a =>
    cases d with
    | any => cases operatorA <;> rfl
    | bound operatorB b =>
      have hleft : testAll [bound operatorB { b with build := [] }] { a with build := [] } =
          testAll [bound operatorB b] a := testAll_map_withoutBuild [bound operatorB b] a
      have hright : testAll [bound operatorA { a with build := [] }] { b with build := [] } =
          testAll [bound operatorA a] b := testAll_map_withoutBuild [bound operatorA a] b
      cases operatorA with
      | equal => exact hleft
      | _ =>
        cases operatorB with
        | equal => exact hright
        | _ => rfl

theorem isSatisfiable_map_withoutBuild (comparators : List Comparator) :
    isSatisfiable (comparators.map withoutBuild) = isSatisfiable comparators := by
  induction comparators with
  | nil => rfl
  | cons c others ih =>
    simp only [List.map_cons, isSatisfiable, List.all_map, Function.comp_def,
      intersects_withoutBuild, ih]

end Comparator

namespace Range

open Comparator

/-- A range as its canonical text shows it. -/
def canonical (range : Range) : Range where
  source := range.text
  alternatives := range.alternatives.map (·.map withoutBuild)

/-- A range as its canonical text shows it accepts the same versions. -/
theorem test_canonical (range : Range) (v : Version) :
    range.canonical.test v = range.test v := by
  simp only [test, canonical, List.any_map, Function.comp_def, testAll_map_withoutBuild]

theorem alternativesIntersect_map_withoutBuild (these those : List Comparator) :
    alternativesIntersect (these.map withoutBuild) (those.map withoutBuild) =
      alternativesIntersect these those := by
  simp only [alternativesIntersect, List.all_map, Function.comp_def, intersects_withoutBuild]

/-- Ranges as their canonical texts show them intersect as they do themselves. -/
theorem intersects_canonical (a b : Range) :
    a.canonical.intersects b.canonical = a.intersects b := by
  simp only [intersects, canonical, List.any_map, Function.comp_def,
    isSatisfiable_map_withoutBuild, alternativesIntersect_map_withoutBuild]

/-! ### The canonical text determines the comparators -/

/-- Lists with the same images under `f` have the same images under whatever `f`
determines on their members. -/
theorem map_eq_map_of_determined {α β γ : Type} {f : α → β} {g : α → γ} {xs ys : List α}
    (hdetermined : ∀ x ∈ xs, ∀ y ∈ ys, f x = f y → g x = g y) (heq : xs.map f = ys.map f) :
    xs.map g = ys.map g := by
  induction xs generalizing ys with
  | nil =>
    rw [List.map_nil, eq_comm, List.map_eq_nil_iff] at heq
    rw [heq]
  | cons x xs ih =>
    cases ys with
    | nil => cases heq
    | cons y ys =>
      obtain ⟨hhead, htail⟩ := List.cons.inj heq
      have hrest : xs.map g = ys.map g :=
        ih (fun u hu w hw => hdetermined u (by simp [hu]) w (by simp [hw])) htail
      rw [List.map_cons, List.map_cons, hdetermined x (by simp) y (by simp) hhead, hrest]

/-- Canonical texts are equal exactly if the alternatives are, apart from builds. -/
theorem canonical_eq_iff {a b : Range} (ha : Reduced a.alternatives)
    (hb : Reduced b.alternatives) : a.canonical = b.canonical ↔ a.text = b.text := by
  constructor
  · exact fun heq => congrArg source heq
  · intro htext
    have hcomparators : ∀ these ∈ a.alternatives, ∀ those ∈ b.alternatives,
        these.map Comparator.text = those.map Comparator.text →
          these.map withoutBuild = those.map withoutBuild := by
      intro these hthese those hthose
      apply map_eq_map_of_determined
      intro c hc d hd
      exact withoutBuild_eq_of_text_eq ((ha.simplified these hthese).wellFormed c hc)
        ((hb.simplified those hthose).wellFormed d hd)
    have halternatives : a.alternatives.map (·.map withoutBuild) =
        b.alternatives.map (·.map withoutBuild) :=
      map_eq_map_of_determined hcomparators (map_text_eq_of_text_eq ha hb htext)
    rw [canonical, canonical, halternatives, htext]

/-- Two ranges that were read compare equal exactly if they have the same
alternatives but for the builds.  Then they accept the same versions, and each
range intersects both or neither of them, from either side. -/
theorem same_ranges_answer_alike {s t : Text} {a b : Range} (hs : read s = .ok a)
    (ht : read t = .ok b) :
    (a.isSame b = true ↔
        a.alternatives.map (·.map withoutBuild) = b.alternatives.map (·.map withoutBuild)) ∧
      (a.isSame b = true →
        (∀ v, a.test v = b.test v) ∧
          ∀ c : Range, a.intersects c = b.intersects c ∧ c.intersects a = c.intersects b) := by
  have hcanonical := canonical_eq_iff (reduced_of_read hs) (reduced_of_read ht)
  rw [isSame, beq_iff_eq]
  refine ⟨⟨?_, ?_⟩, ?_⟩
  · exact fun htext => congrArg alternatives (hcanonical.mpr htext)
  · intro heq
    have htext : a.canonical.text = b.canonical.text := by
      simp only [text, canonical, heq]
    rwa [← text_eq_of_alternatives_eq (a := a.canonical) (b := a) rfl,
      ← text_eq_of_alternatives_eq (a := b.canonical) (b := b) rfl]
  · intro htext
    have hsame := hcanonical.mpr htext
    refine ⟨fun v => ?_, fun c => ⟨?_, ?_⟩⟩
    · calc a.test v = a.canonical.test v := (test_canonical a v).symm
        _ = b.canonical.test v := by rw [hsame]
        _ = b.test v := test_canonical b v
    · calc a.intersects c = a.canonical.intersects c.canonical := (intersects_canonical a c).symm
        _ = b.canonical.intersects c.canonical := by rw [hsame]
        _ = b.intersects c := intersects_canonical b c
    · calc c.intersects a = c.canonical.intersects a.canonical := (intersects_canonical c a).symm
        _ = c.canonical.intersects b.canonical := by rw [hsame]
        _ = c.intersects b := intersects_canonical c b

/-- Two spellings of one range, with a build in the one that the other has not. -/
theorem same_ranges_answer_alike_builds :
    ∃ a b, read "=1.2.3+b || 2.x".toList = .ok a ∧
      read "v1.2.3 || >=2.0.0 <3.0.0-0".toList = .ok b ∧ a.isSame b = true ∧
        ∀ v, a.test v = b.test v := by
  have hs : read "=1.2.3+b || 2.x".toList =
      .ok ⟨"=1.2.3+b || 2.x".toList,
        [[.bound .equal ⟨1, 2, 3, [], [['b']]⟩],
          [.bound .greaterEqual ⟨2, 0, 0, [], []⟩, .bound .less ⟨3, 0, 0, [.numeric 0], []⟩]]⟩ :=
    read_of_toOption (by decide +kernel)
  have ht : read "v1.2.3 || >=2.0.0 <3.0.0-0".toList =
      .ok ⟨"v1.2.3 || >=2.0.0 <3.0.0-0".toList,
        [[.bound .equal ⟨1, 2, 3, [], []⟩],
          [.bound .greaterEqual ⟨2, 0, 0, [], []⟩, .bound .less ⟨3, 0, 0, [.numeric 0], []⟩]]⟩ :=
    read_of_toOption (by decide +kernel)
  obtain ⟨hiff, halike⟩ := same_ranges_answer_alike hs ht
  have hsame := hiff.mpr rfl
  exact ⟨_, _, hs, ht, hsame, (halike hsame).1⟩

end Range

end SemanticVersions
