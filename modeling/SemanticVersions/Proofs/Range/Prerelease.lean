import SemanticVersions.Proofs.Range.Unasking
import SemanticVersions.Proofs.Version.Precedence

/-!
# Prereleases are taken up only where they are named

A range in which no prerelease is written accepts no prerelease.  The bounds that are
written out for shorthands and hyphen ranges may name the prerelease `0` of a release, but
only to stay below it, and nothing of this release stands there.
-/

namespace SemanticVersions

/-! ### Comparators that ask for no prerelease -/

namespace Comparator

/-- Whether a comparator names no prerelease, or is a bound `<X-0`. -/
def Unasking : Comparator → Prop
  | any => True
  | bound operator version =>
    version.prerelease = [] ∨ operator = .less ∧ version.prerelease = [.numeric 0]

/-- A bound `<X-0` holds of no version of the release `X`. -/
theorem Unasking.test_eq_false {c : Comparator} (hc : c.Unasking) {v : Version}
    (hadmits : admits v c = true) : c.test v = false := by
  cases c with
  | any => cases hadmits
  | bound operator version =>
    rw [admits, Bool.and_eq_true] at hadmits
    obtain ⟨hprerelease, hrelease⟩ := hadmits
    rcases hc with hnone | ⟨rfl, hzero⟩
    · simp [Version.isPrerelease, hnone] at hprerelease
    · have hsame : Version.compareRelease v version = .eq := by
        rw [Version.compareRelease_eq_iff]
        obtain ⟨hmajor, hminor, hpatch⟩ :=
          Version.compareRelease_eq_iff.mp (Version.sameRelease_iff.mp hrelease)
        exact ⟨hmajor.symm, hminor.symm, hpatch.symm⟩
      have hnotLess : compare v version ≠ .lt := by
        rw [Version.compare_eq_then, hsame, hzero]
        exact Version.comparePrerelease_zero_ne_lt v.prerelease
      change (compare v version).isLT = false
      rw [← Bool.not_eq_true, Ordering.isLT_iff_eq_lt]
      exact hnotLess

/-- Comparators that ask for no prerelease accept none. -/
theorem testAll_eq_false {comparators : List Comparator} (hunasking : ∀ c ∈ comparators, c.Unasking)
    {v : Version} (hv : v.isPrerelease = true) : testAll comparators v = false := by
  rw [← Bool.not_eq_true]
  intro htest
  rw [testAll, hv, Bool.and_eq_true, List.all_eq_true] at htest
  obtain ⟨c, hc, hadmits⟩ := List.any_eq_true.mp htest.2
  have hfails := (hunasking c hc).test_eq_false hadmits
  rw [htest.1 c hc] at hfails
  cases hfails

end Comparator

/-! ### Reading tokens -/

/-- The only sign that can end in `<` in front of a release is `<`. -/
theorem operator_eq_less {sign rest : Text} {operator : Operator}
    (hsign : Operator.IsSign sign) (hrest : '<' ∉ rest)
    (hends : EndsInLess (sign ++ rest)) (hread : Operator.read sign = .ok operator) :
    operator = .less := by
  have hmem : '<' ∈ sign := (List.mem_append.mp hends.mem).resolve_right hrest
  rcases hsign with rfl | rfl | rfl | rfl | rfl | rfl
  · cases hmem
  · cases hread
    rfl
  · have hsplit : EndsInLess (['<'] ++ '=' :: rest) := hends
    exact absurd (hsplit.behind (by decide)).mem hrest
  · simp at hmem
  · simp at hmem
  · simp at hmem

/-- A comparator that reads from a token with none but harmless hyphens asks for no
prerelease. -/
theorem unasking_of_read {token : Text} (htoken : Unasking token)
    (hblanks : ∀ c ∈ token, isBlank c = false) {c : Comparator}
    (hread : Comparator.read token = .ok c) : c.Unasking := by
  cases c with
  | any => trivial
  | bound operator version =>
    obtain ⟨hoperator, hversion⟩ := Comparator.bound_of_read hread
    obtain ⟨hwell, hwritten⟩ := Version.read_eq_ok_iff.mp hversion
    have hparts := spanSign_append token
    have hrest : ∀ d ∈ (spanSign token).2, isBlank d = false := fun d hd =>
      hblanks d (by rw [← hparts]; simp [hd])
    have hoperand : Comparator.operand token = (spanSign token).2 :=
      trimStart_eq_self fun d hd => hrest d (List.mem_of_mem_head? hd)
    rw [hoperand, trim_eq_self_of_no_blank hrest] at hwritten
    obtain ⟨lead, hlead, hfull⟩ : ∃ lead ∈ ([[], ['v']] : List Text),
        (spanSign token).2 = lead ++ version.fullText := by simpa using hwritten
    by_cases hnone : version.prerelease = []
    · exact .inl hnone
    right
    obtain ⟨c, suffix, hsuffix, hversionText⟩ := Version.fullText_of_prerelease hwell hnone
    have htext : token = ((spanSign token).1 ++ (lead ++ version.releaseText)) ++
        '-' :: c :: (suffix ++ Version.markedText '+' version.build) := by
      have hwhole := hparts.symm
      rw [hfull, hversionText] at hwhole
      simpa using hwhole
    rcases htoken _ _ _ htext with hblank | ⟨rfl, hhead, hends⟩
    · rw [hblanks c (by rw [htext]; simp)] at hblank
      cases hblank
    have hend : suffix ++ Version.markedText '+' version.build = [] := by
      rw [← List.head?_eq_none_iff, Option.eq_none_iff_forall_not_mem]
      intro d hd
      have hmem := List.mem_of_mem_head? hd
      have hblank := hhead d hd
      rw [hblanks d (by rw [htext]; simp only [List.mem_append, List.mem_cons]; grind)] at hblank
      cases hblank
    rw [(List.append_eq_nil_iff.mp hend).1] at hsuffix
    refine ⟨operator_eq_less (Operator.isSign_spanSign token) ?_ hends hoperator,
      Version.prerelease_eq_zero hwell hsuffix⟩
    intro hmem
    rcases List.mem_append.mp hmem with hmem | hmem
    · simp only [List.mem_cons, List.not_mem_nil, or_false] at hlead
      rcases hlead with rfl | rfl <;> simp at hmem
    · rcases Version.mem_releaseText hmem with hpoint | hdigit
      · exact absurd hpoint (by decide)
      · exact absurd hdigit (by decide)

/-! ### Reading a range -/

namespace Range

open Comparator

/-- An alternative with open hyphens names no prerelease, unless in a bound `<X-0`. -/
theorem unasking_of_readAlternative {alternative : Text} (hopen : HyphensOpen alternative)
    {comparators : List Comparator} (hread : readAlternative alternative = .ok comparators) :
    ∀ c ∈ comparators, c.Unasking := by
  obtain ⟨normal, collected, hnormal, htokens, rfl⟩ := readAlternative_eq_ok hread
  have htext := Normal.unasking_ofAlternative hopen hnormal
  intro c hc
  rcases mem_of_readTokens htokens c (mem_of_mem_dropAny hc) with hknown | ⟨token, htoken, hc⟩
  · cases hknown
  rcases Normal.mem_tokens htoken with rfl | hpiece
  · cases hc
    trivial
  · exact unasking_of_read (htext.of_mem_splitBlanks hpiece)
      (not_isBlank_of_mem_piecesFrom token hpiece) hc

/-- Whether every hyphen of a text has a blank on both sides, as between the ends of a
hyphen range. -/
def HyphensApart (text : Text) : Prop :=
  ∀ i < text.length, text[i]? = some '-' →
    (0 < i ∧ (text[i - 1]?).any isBlank = true) ∧ (text[i + 1]?).any isBlank = true

instance : DecidablePred HyphensApart := fun text =>
  inferInstanceAs (Decidable (∀ i < text.length, text[i]? = some '-' →
    (0 < i ∧ (text[i - 1]?).any isBlank = true) ∧ (text[i + 1]?).any isBlank = true))

theorem HyphensApart.hyphensOpen {text : Text} (htext : HyphensApart text) : HyphensOpen text := by
  rintro c ⟨front, back, rfl⟩
  have hhyphen := htext front.length (by simp) (by simp)
  simpa using hhyphen.2

/-- A range whose hyphens all stand between blanks names no prerelease, and it accepts
none.  The bounds that are written out for its shorthands and hyphen ranges may admit
prereleases of their release, but they hold of none of those. -/
theorem unnamed_prerelease_rejected {source : Text} (hsource : HyphensApart source)
    {range : Range} (hread : read source = .ok range) :
    (∀ v : Version, v.isPrerelease = true → range.test v = false) ∧
      ∀ comparators ∈ range.alternatives, ∀ c ∈ comparators, ∀ v,
        admits v c = true → c.test v = false := by
  have hunasking : ∀ comparators ∈ range.alternatives, ∀ c ∈ comparators, c.Unasking := by
    obtain ⟨alternatives, hmap, rfl⟩ := read_eq_ok_iff.mp hread
    intro comparators hmem
    obtain ⟨alternative, halternative, hcomparators⟩ :=
      (mem_mapM_iff hmap).mp (mem_of_mem_simplify hmem)
    obtain ⟨piece, hpiece, rfl⟩ := List.mem_map.mp halternative
    have hinfix : trim piece <:+: source :=
      (trim_isInfix piece).trans (isInfix_of_mem_splitBars hpiece)
    exact unasking_of_readAlternative (hsource.hyphensOpen.of_isInfix hinfix) hcomparators
  constructor
  · intro v hv
    rw [test, List.any_eq_false]
    intro comparators hmem
    rw [testAll_eq_false (hunasking comparators hmem) hv]
    decide
  · intro comparators hmem c hc v hadmits
    exact (hunasking comparators hmem c hc).test_eq_false hadmits

/-- The bound `<4.0.0-0` of a hyphen range does not let `4.0.0-0` in. -/
theorem unnamed_prerelease_rejected_hyphen_range :
    HyphensApart "1.2 - 3 || ^4 <=5.x".toList ∧
      ∃ range, read "1.2 - 3 || ^4 <=5.x".toList = .ok range ∧
        range.test ⟨4, 0, 0, [.numeric 0], []⟩ = false := by
  have hapart : HyphensApart "1.2 - 3 || ^4 <=5.x".toList := by decide
  have hread : read "1.2 - 3 || ^4 <=5.x".toList =
      .ok ⟨"1.2 - 3 || ^4 <=5.x".toList,
        [[.bound .greaterEqual ⟨1, 2, 0, [], []⟩, .bound .less ⟨4, 0, 0, [.numeric 0], []⟩],
          [.bound .greaterEqual ⟨4, 0, 0, [], []⟩, .bound .less ⟨5, 0, 0, [.numeric 0], []⟩,
            .bound .less ⟨6, 0, 0, [.numeric 0], []⟩]]⟩ :=
    read_of_toOption (by decide +kernel)
  exact ⟨hapart, _, hread, (unnamed_prerelease_rejected hapart hread).1 _ rfl⟩

end Range

end SemanticVersions
