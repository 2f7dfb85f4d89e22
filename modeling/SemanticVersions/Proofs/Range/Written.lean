import SemanticVersions.Proofs.Grammar.Entries
import SemanticVersions.Proofs.Range.Simplification

/-!
# Comparators as they are written

A comparison with a full version is a token that stands for no other bounds, whether or not its
version has a `v` in front and a build behind it.  An alternative that is written out as such
tokens is read as their comparators.
-/

namespace SemanticVersions

/-- A version that is read leaves nothing out as a partial version. -/
theorem Partial.exists_read?_of_read? {text : Text} {v : Version}
    (hread : Version.read? text = some v) :
    ∃ version, Partial.read? text = some version ∧ version.isFull = true := by
  obtain ⟨hv, rfl | rfl⟩ := Version.read?_eq_some_iff.mp hread
  · exact ⟨_, read?_fullText hv, rfl⟩
  · have hlead : ∀ c ∈ ['v'], isLead c = true := by simp [isLead]
    exact ⟨_, (read?_append_lead hlead v.fullText).trans (read?_fullText hv), rfl⟩

namespace Comparator

/-- A comparison is read from its sign and its version. -/
theorem read_eq_bound_iff {text : Text} {operator : Operator} {version : Version} :
    read text = .ok (bound operator version) ↔
      Operator.read (spanSign text).1 = .ok operator ∧
        Version.read? (operand text) = some version := by
  have htrim : Version.hasForm (operand text) = true →
      (Version.read (operand text) = .ok version ↔
        Version.read? (operand text) = some version) := by
    intro hform
    rw [Version.read, trim_eq_self_of_no_blank (Version.not_isBlank_of_hasForm hform)]
    cases Version.read? (operand text) <;> simp
  constructor
  · intro hread
    obtain ⟨hoperator, hversion⟩ := bound_of_read hread
    have hne : text.isEmpty = false := by
      cases text with
      | nil => cases hread
      | cons c rest => rfl
    have hform := hasForm_of_read hread
    rw [hasForm, hne, Bool.false_or] at hform
    exact ⟨hoperator, (htrim hform).mp hversion⟩
  · rintro ⟨hoperator, hversion⟩
    have hform := Version.hasForm_of_read? hversion
    have hne : ¬ text.isEmpty = true := by
      intro hempty
      rw [List.isEmpty_iff.mp hempty] at hform
      exact absurd hform (by decide)
    rw [read, if_neg hne, if_pos hform, hoperator, (htrim hform).mpr hversion]
    rfl

theorem read_eq_any_iff {text : Text} : read text = .ok any ↔ text = [] := by
  constructor
  · intro hread
    unfold read at hread
    split at hread
    · next hempty => exact List.isEmpty_iff.mp hempty
    · split at hread
      · obtain ⟨operator, hoperator, -⟩ := Operator.read_spanSign text
        rw [hoperator] at hread
        cases hversion : Version.read (operand text) <;> rw [hversion] at hread <;> cases hread
      · cases hread
  · rintro rfl
    rfl

/-- A version right behind a sign is compared with. -/
theorem read_append {sign text : Text} (hsign : Operator.IsSign sign) {operator : Operator}
    (hoperator : Operator.read sign = .ok operator) {version : Version}
    (hversion : Version.read? text = some version) :
    read (sign ++ text) = .ok (bound operator version) := by
  have hform := Version.hasForm_of_read? hversion
  have hsolid := Version.not_isBlank_of_hasForm hform
  obtain ⟨c, rest, hcons, hc⟩ := Version.eq_cons_of_hasForm hform
  have hspan : spanSign (sign ++ text) = (sign, text) := by
    apply hsign.spanSign_append
    rw [hcons]
    simpa using Operator.not_isSignChar_of_isVersionChar (isVersionChar_of_isIdentifierChar hc)
  have hoperand : operand (sign ++ text) = text := by
    rw [operand, hspan]
    exact trimStart_eq_self fun d hd => hsolid d (List.mem_of_mem_head? hd)
  exact read_eq_bound_iff.mpr ⟨by rwa [hspan], by rwa [hoperand]⟩

section Comparison

variable {text : Text} {operator : Operator} {version : Version}
  (hread : read text = .ok (bound operator version))

include hread

theorem readShorthand_eq_none : Shorthand.read? text = none := by
  obtain ⟨-, hversion⟩ := read_eq_bound_iff.mp hread
  have hform := hasForm_of_read hread
  have hcaret : '^' ∉ text := not_mem_of_hasForm hform (by decide) (by decide) (by decide)
  have htilde : '~' ∉ text := not_mem_of_hasForm hform (by decide) (by decide) (by decide)
  rw [Option.eq_none_iff_forall_not_mem]
  intro shorthand hshorthand
  rcases Shorthand.exists_read?_iff.mp ⟨shorthand, hshorthand⟩ with ⟨rest, _, rfl, _⟩ |
    ⟨rest, _, rfl | rfl, _⟩ | ⟨found, hfound, hpart⟩
  · exact hcaret (by simp)
  · exact htilde (by simp)
  · exact htilde (by simp)
  · obtain ⟨full, hfull, hwhole⟩ := Partial.exists_read?_of_read? hversion
    have hlead : ∀ c ∈ (spanSign text).2.takeWhile isBlank, Partial.isLead c = true := by
      intro c hc
      simp [Partial.isLead, (List.mem_takeWhile_imp hc : isBlank c = true)]
    rw [← takeWhile_append_trimStart (spanSign text).2, Partial.read?_append_lead hlead] at hfound
    rw [operand, hfound] at hfull
    cases hfull
    rw [hwhole] at hpart
    cases hpart

/-- A comparator in full is no shorthand and stays as it is. -/
theorem expandToken_of_read : Normal.expandToken text = .ok text := by
  have hstar : '*' ∉ text :=
    not_mem_of_hasForm (hasForm_of_read hread) (by decide) (by decide) (by decide)
  rw [Normal.expandToken, readShorthand_eq_none hread]
  exact congrArg Except.ok (Spacing.dropStars_eq_self hstar)

end Comparison

/-! ### Tokens -/

theorem exists_of_isToken {text : Text} (htoken : IsToken text) {c : Comparator}
    (hread : read text = .ok c) : ∃ operator version, c = bound operator version := by
  cases c with
  | any => exact absurd (read_eq_any_iff.mp hread) htoken.1
  | bound operator version => exact ⟨operator, version, rfl⟩

/-- A comparator as it stands in an alternative: a token that is not dropped. -/
structure Written where
  text : Text
  comparator : Comparator
  token : IsToken text
  reads : read text = .ok comparator
  kept : comparator.isAtLeastZero = false

namespace Written

def ofVersion (operator : Operator) (hsign : operator.hasSign = true) (text : Text)
    (version : Version) (hread : Version.read? text = some version)
    (hkept : (bound operator version).isAtLeastZero = false) : Written where
  text := operator.text ++ text
  comparator := bound operator version
  token := by
    have hform := Version.hasForm_of_read? hread
    obtain ⟨first, rest, hcons, -⟩ := Version.eq_cons_of_hasForm hform
    refine ⟨by simp [hcons], List.forall_mem_append.mpr ⟨fun c hc => ?_, ?_⟩⟩
    · have hchar := Operator.isSignChar_of_mem_text hsign hc
      by_contra hblank
      rw [Operator.not_isSignChar_of_isBlank (by simpa using hblank)] at hchar
      cases hchar
    · exact Version.not_isBlank_of_hasForm hform
  reads := read_append (Operator.isSign_text hsign) (Operator.read_text operator) hread
  kept := hkept

theorem expandToken_text (written : Written) :
    Normal.expandToken written.text = .ok written.text := by
  obtain ⟨operator, version, hbound⟩ := exists_of_isToken written.token written.reads
  exact expandToken_of_read (hbound ▸ written.reads)

theorem dropAtLeastZero_text (written : Written) :
    Spacing.dropAtLeastZero written.text = written.text := by
  rw [Range.dropAtLeastZero_eq written.token.2, if_neg]
  intro hzero
  have hread := written.reads
  rw [hzero, Range.read_zeroToken, Except.ok.injEq] at hread
  have hkept := written.kept
  rw [← hread] at hkept
  cases hkept

theorem not_mem (written : Written) {mark : Char} (hsign : Operator.isSignChar mark = false)
    (hblank : isBlank mark = false) (hversion : isFullTextChar mark = false) :
    mark ∉ written.text :=
  not_mem_of_hasForm (hasForm_of_read written.reads) hsign hblank hversion

/-- A written comparator ends in its version. -/
theorem getLast?_text (written : Written) :
    ∀ c ∈ written.text.getLast?, Operator.isSignChar c = false := by
  obtain ⟨operator, version, hbound⟩ := exists_of_isToken written.token written.reads
  obtain ⟨-, hversion⟩ := read_eq_bound_iff.mp (hbound ▸ written.reads)
  have hform := Version.hasForm_of_read? hversion
  obtain ⟨first, rest, hcons, -⟩ := Version.eq_cons_of_hasForm hform
  have hsuffix : operand written.text <:+ written.text :=
    (trimStart_suffix _).trans ⟨_, spanSign_append written.text⟩
  obtain ⟨front, hfront⟩ := hsuffix
  intro c hc
  rw [← hfront, List.getLast?_append_of_ne_nil _ (by simp [hcons])] at hc
  have hchar := Version.isFullTextChar_of_hasForm hform (List.mem_of_getLast? hc)
  exact Operator.isSignChar_eq_false_iff.mpr
    ⟨ne_of_class hchar (by decide), ne_of_class hchar (by decide), ne_of_class hchar (by decide)⟩

end Written

end Comparator

namespace Range

open Comparator

theorem isToken_of_mem_written {written : List Written} :
    ∀ token ∈ written.map Written.text, IsToken token := by
  intro token htoken
  obtain ⟨c, -, rfl⟩ := List.mem_map.mp htoken
  exact c.token

theorem close_written (written : List Written) :
    Spacing.close (joinWith [' '] (written.map Written.text)) =
      joinWith [' '] (written.map Written.text) := by
  have habsent : ∀ mark : Char, Operator.isSignChar mark = false → isBlank mark = false →
      isFullTextChar mark = false → mark ∉ joinWith [' '] (written.map Written.text) := by
    intro mark hsign hblank hversion hmem
    rcases mem_joinWith hmem with hspace | ⟨token, htoken, hmem⟩
    · rw [List.mem_singleton.mp hspace] at hblank
      exact absurd hblank (by decide)
    · obtain ⟨c, -, rfl⟩ := List.mem_map.mp htoken
      exact c.not_mem hsign hblank hversion hmem
  apply Spacing.close_eq_self
  · apply Spacing.signsClosed_joinWith isToken_of_mem_written
    intro token htoken
    obtain ⟨c, -, rfl⟩ := List.mem_map.mp htoken
    exact c.getLast?_text
  · exact habsent '~' (by decide) (by decide) (by decide)
  · exact habsent '^' (by decide) (by decide) (by decide)

/-- An alternative that is written out as comparators is read as these. -/
theorem exists_readAlternative_written {alternative : Text} {written : List Written}
    (hexpand : Normal.expandHyphen alternative = .ok (joinWith [' '] (written.map Written.text))) :
    ∃ simplified, readAlternative alternative = .ok simplified ∧
      ∀ v, testAll simplified v = testAll (written.map Written.comparator) v := by
  by_cases hne : written = []
  · subst hne
    have hempty : Normal.expandHyphen alternative = Normal.expandHyphen [] := hexpand
    have hnil : Normal.ofAlternative alternative = .ok [] := by
      rw [Normal.ofAlternative, hempty]
      exact ofAlternative_nil
    have hany : (Normal.tokens []).mapM Comparator.read = .ok [.any] := rfl
    obtain ⟨simplified, hread, hsame⟩ := exists_readAlternative_testAll hnil hany
    refine ⟨simplified, hread, fun v => ?_⟩
    rw [hsame, testAll_any]
    simp [testAll]
  · have hpieces : splitBlanks (joinWith [' '] (written.map Written.text)) =
        written.map Written.text := splitBlanks_joinWith (by simpa using hne) isToken_of_mem_written
    have hexpanded : (written.map Written.text).mapM Normal.expandToken =
        .ok (written.map Written.text) := mapM_map_eq_ok fun c _ => c.expandToken_text
    have hnormal : Normal.ofAlternative alternative =
        .ok (joinWith [' '] (written.map Written.text)) := by
      rw [Normal.ofAlternative, hexpand]
      change (splitBlanks (Spacing.close (joinWith [' '] (written.map Written.text)))).mapM
        Normal.expandToken >>= _ = _
      rw [close_written, hpieces, hexpanded]
      rfl
    apply exists_readAlternative_testAll hnormal
    rw [Normal.tokens, hpieces, List.map_map]
    apply mapM_map_eq_ok
    intro c _
    rw [Function.comp_apply, c.dropAtLeastZero_text]
    exact c.reads

end Range

end SemanticVersions
