import SemanticVersions.Proofs.Comparator.Intersection
import SemanticVersions.Proofs.Range.Respacing
import SemanticVersions.Proofs.Range.Written

/-!
# Ranges of one comparator

The text of a comparator is a range of that comparator alone: it is one token, which is moved
together, stands for no other bounds, and is read as it is.  Only `>=0.0.0` is dropped.
-/

namespace SemanticVersions

namespace Comparator

theorem isSame_withoutBuild (c : Comparator) : c.withoutBuild.isSame c = true := by
  cases c with
  | any => rfl
  | bound operator version =>
    have hsame : compare ({ version with build := [] } : Version) version = .eq :=
      Version.compare_eq_iff.mpr rfl
    simp [withoutBuild, isSame, Version.isSame, hsame]

/-- A comparison is a token of a range, with its sign moved up to its version. -/
theorem exists_spacedToken {text : Text} {operator : Operator} {version : Version}
    (hread : read text = .ok (bound operator version)) : ∃ token : SpacedToken,
    trim text = SpacedToken.textOfList [token] ∧
      read token.closed.text = .ok (bound operator version) := by
  obtain ⟨hoperator, hversion⟩ := read_eq_bound_iff.mp hread
  have hform := Version.hasForm_of_read? hversion
  have hsolid := Version.not_isBlank_of_hasForm hform
  have hgap : ∀ c ∈ (spanSign text).2.takeWhile isBlank, isBlank c = true := fun c hc =>
    List.mem_takeWhile_imp hc
  have htext : text =
      (spanSign text).1 ++ ((spanSign text).2.takeWhile isBlank ++ operand text) := by
    rw [operand, takeWhile_append_trimStart, spanSign_append]
  have hclosed := read_append (Operator.isSign_spanSign text) hoperator hversion
  obtain ⟨full, hfull, -⟩ := Partial.exists_read?_of_read? hversion
  by_cases hsign : (spanSign text).1 = []
  · -- Blanks without a sign in front of them stand at the head of the text.
    refine ⟨.bare (operand text) ⟨full, hfull⟩ hsolid, ?_, by rwa [hsign] at hclosed⟩
    rw [hsign, List.nil_append] at htext
    have htrim : trim text = trim (operand text) := by
      conv_lhs => rw [htext]
      rw [trim, trimStart_append_of_blank hgap, trim]
    rw [htrim, trim_eq_self_of_no_blank hsolid]
    simp [SpacedToken.textOfList, SpacedToken.text, SpacedToken.bare, SpacedToken.behindBlank]
  · have hknown : (spanSign text).1 ∈ tokenOperators := by
      rcases Operator.isSign_spanSign text with h | h | h | h | h | h <;> rw [h] <;> decide
    let token : SpacedToken :=
      .behindBlank (spanSign text).1 ((spanSign text).2.takeWhile isBlank) (operand text) hknown
        hgap (fun hnil => absurd hnil hsign) ⟨full, hfull⟩ hsolid
    have htoken : text = SpacedToken.textOfList [token] := by
      rw [SpacedToken.textOfList, SpacedToken.laterText_nil, List.append_nil]
      exact htext
    refine ⟨token, ?_, hclosed⟩
    rw [htoken, SpacedToken.trim_textOfList]

end Comparator

namespace Range

theorem readPieces_singleton (written : Comparator.Written) :
    readPieces [written.text] = .ok [written.comparator] := by
  have hpieces : splitBlanks written.text = [written.text] :=
    piecesFrom_eq_singleton written.token.2 false
  have htokens : Normal.tokens written.text = [written.text] := by
    rw [Normal.tokens, hpieces, List.map_singleton, written.dropAtLeastZero_text]
  have hcollected : readTokens [] [written.text] = .ok [written.comparator] := by
    rw [readTokens_cons written.reads]
    split
    · rfl
    · rfl
  refine readPieces_eq_ok_iff.mpr ⟨[written.text], ?_, ?_⟩
  · rw [List.mapM_cons, written.expandToken_text]
    rfl
  · rw [joinWith_singleton, readNormal_eq_ok_iff, htokens]
    exact ⟨[written.comparator], hcollected, rfl⟩

/-- A comparator is read as a range of its own. -/
theorem read_comparator {text : Text} {c : Comparator} (hread : Comparator.read text = .ok c)
    (hzero : c.isAtLeastZero = false) : read text = .ok ⟨text, [[c]]⟩ := by
  cases c with
  | any =>
    obtain rfl := Comparator.read_eq_any_iff.mp hread
    exact read_of_toOption (by decide +kernel)
  | bound operator version =>
    have hbar : '|' ∉ text := Comparator.not_mem_of_hasForm (Comparator.hasForm_of_read hread)
      (by decide) (by decide) (by decide)
    obtain ⟨token, htrim, hclosed⟩ := Comparator.exists_spacedToken hread
    let written : Comparator.Written :=
      ⟨token.closed.text, .bound operator version,
        ⟨token.closed.text_ne_nil, SpacedToken.text_solid rfl⟩, hclosed, hzero⟩
    have halternative : readAlternative (trim text) = .ok [.bound operator version] := by
      rw [htrim, readAlternative_textOfList (by simp)]
      exact readPieces_singleton written
    rw [read_eq_of_singleton (alternativeTexts_eq_singleton hbar), halternative]
    rfl

/-- A comparator other than `>=0.0.0` is a range of its own.  So is its canonical text, which
is read as the same comparator without the build of its version.  The range accepts what the
comparator holds of, and of prereleases only those that it names. -/
theorem comparator_read_alone {text : Text} {c : Comparator}
    (hread : Comparator.read text = .ok c) (hzero : c.isAtLeastZero = false) :
    (∃ range, read text = .ok range ∧ range.alternatives = [[c]] ∧
        ∀ v : Version, range.test v = true ↔
          c.test v = true ∧ (v.isPrerelease = true → c.admits v = true)) ∧
      Comparator.read c.text = .ok c.withoutBuild ∧ c.withoutBuild.isSame c = true ∧
        ∃ range, read c.text = .ok range ∧ range.alternatives = [[c.withoutBuild]] := by
  have hwell := Comparator.wellFormed_of_read hread
  have hreread := Comparator.read_text hwell
  refine ⟨⟨⟨text, [[c]]⟩, read_comparator hread hzero, rfl, fun v => ?_⟩, hreread,
    c.isSame_withoutBuild, ⟨c.text, [[c.withoutBuild]]⟩, ?_, rfl⟩
  · have haccepts : Range.test ⟨text, [[c]]⟩ v = Comparator.testAll [c] v := by
      simp [Range.test]
    rw [haccepts, Comparator.testAll_singleton]
    cases v.isPrerelease <;> simp
  · apply read_comparator hreread
    rw [Comparator.isAtLeastZero_withoutBuild, hzero]

/-- The blank and the `v` behind the sign are not kept, and the prerelease `0v` is not cut. -/
theorem comparator_read_alone_sample :
    let text := "> v1.2.3-0v+b".toList
    let c : Comparator := .bound .greater ⟨1, 2, 3, [.textual "0v".toList], ["b".toList]⟩
    Comparator.read text = .ok c ∧ c.isAtLeastZero = false ∧
      ∃ range, read text = .ok range ∧ range.alternatives = [[c]] ∧
        range.test ⟨1, 2, 3, [], []⟩ = true ∧
          range.test ⟨1, 2, 4, [.numeric 0], []⟩ = false ∧
            Comparator.read c.text = .ok c.withoutBuild := by
  intro text c
  have hread : Comparator.read text = .ok c := by decide
  have hzero : c.isAtLeastZero = false := rfl
  obtain ⟨⟨range, hrange, halternatives, haccepts⟩, hreread, -, -⟩ :=
    comparator_read_alone hread hzero
  refine ⟨hread, hzero, range, hrange, halternatives, ?_, ?_, hreread⟩
  · rw [haccepts]
    decide
  · rw [← Bool.not_eq_true, haccepts]
    decide

end Range

end SemanticVersions
