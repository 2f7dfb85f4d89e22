import SemanticVersions.Proofs.Grammar.Entries
import SemanticVersions.Proofs.Range.Normal
import SemanticVersions.Proofs.Range.Refusal
import SemanticVersions.Proofs.Range.Stability

/-!
# Ranges of one token

The table has four patterns of whole tokens, and a range of one token is read through a
normal form that is not checked against them.  What the two differ in are stars: all that
belong to no shorthand are dropped, wherever they stand, and what is left of the token may
be a comparator although the token matches no pattern.
-/

namespace SemanticVersions

/-! ### Stars -/

/-- A star in a partial version stands for a number that is left out. -/
theorem Partial.star_not_mem_of_isFull {text : Text} {version : Partial}
    (hread : read? text = some version) (hfull : version.isFull = true) : '*' ∉ text := by
  obtain ⟨release, suffix, build, hparts, _, hplain⟩ := hasParts_of_read? hread
  have hsplit : text.takeWhile isLead ++ text.dropWhile isLead = text :=
    List.takeWhile_append_dropWhile
  have hbody : ∀ c ∈ text.dropWhile isLead, isFullTextChar c = true := fun c hc => by
    rw [hparts.text_eq] at hc
    exact Version.isFullTextChar_of_mem_assemble (hplain hfull) hparts.prerelease_field
      hparts.build_field hc
  rw [← hsplit, List.mem_append, not_or]
  exact ⟨not_mem_of_class (fun _ hc => List.mem_takeWhile_imp hc) (by decide),
    not_mem_of_class hbody (by decide)⟩

namespace Range

/-! ### Patterns of tokens -/

def tokenPatterns : List Grammar.Pattern :=
  ["COMPARATOR".toList, "XRANGE".toList, "TILDE".toList, "CARET".toList].filterMap
    Grammar.lookup?

/-- Whether a token matches a pattern of whole tokens.  These are anchored at both ends,
so a match is never a part of the token. -/
def MatchesPattern (token : Text) : Prop :=
  ∃ pattern ∈ tokenPatterns, pattern.matchesIn token ≠ []

instance : DecidablePred MatchesPattern := fun token =>
  inferInstanceAs (Decidable (∃ pattern ∈ tokenPatterns, pattern.matchesIn token ≠ []))

/-- Whether a token has a star and is no shorthand. -/
def LeavesStar (token : Text) : Prop :=
  '*' ∈ token ∧ Shorthand.read? token = none

instance : DecidablePred LeavesStar := fun token =>
  inferInstanceAs (Decidable ('*' ∈ token ∧ Shorthand.read? token = none))

theorem tokenPatterns_eq :
    tokenPatterns = [Grammar.comparator, Grammar.wildRange, Grammar.tilde, Grammar.caret] := by
  decide

/-- A token matches a pattern exactly if it has the form of a comparator, is a comparison
with a full version, or is a shorthand. -/
theorem matchesPattern_iff {token : Text} :
    MatchesPattern token ↔
      Comparator.hasForm token = true ∨
        (∃ version, Partial.read? (spanSign token).2 = some version ∧ version.isFull = true) ∨
          ∃ shorthand, Shorthand.read? token = some shorthand := by
  have hpatterns : MatchesPattern token ↔
      Grammar.comparator.matchesIn token ≠ [] ∨ Grammar.wildRange.matchesIn token ≠ [] ∨
        Grammar.tilde.matchesIn token ≠ [] ∨ Grammar.caret.matchesIn token ≠ [] := by
    simp only [MatchesPattern, tokenPatterns_eq, List.mem_cons, List.not_mem_nil, or_false,
      exists_eq_or_imp, exists_eq_left]
  rw [hpatterns, Grammar.describes_comparator.matchesIn_ne_nil_iff,
    Grammar.describes_wildRange.matchesIn_ne_nil_iff,
    Grammar.describes_tilde.matchesIn_ne_nil_iff, Grammar.describes_caret.matchesIn_ne_nil_iff,
    Shorthand.exists_read?_iff]
  constructor
  · rintro (hform | ⟨version, hversion⟩ | htilde | hcaret)
    · exact .inl hform
    · cases hfull : version.isFull with
      | true => exact .inr (.inl ⟨version, hversion, hfull⟩)
      | false => exact .inr (.inr (.inr (.inr ⟨version, hversion, hfull⟩)))
    · exact .inr (.inr (.inr (.inl htilde)))
    · exact .inr (.inr (.inl hcaret))
  · rintro (hform | ⟨version, hversion, _⟩ | hcaret | htilde | ⟨version, hversion, _⟩)
    · exact .inl hform
    · exact .inr (.inl ⟨version, hversion⟩)
    · exact .inr (.inr (.inr hcaret))
    · exact .inr (.inr (.inl htilde))
    · exact .inr (.inl ⟨version, hversion⟩)

/-- A token that leaves a star matches no pattern of whole tokens. -/
theorem not_matchesPattern_of_leavesStar {token : Text} (hstar : LeavesStar token) :
    ¬ MatchesPattern token := by
  obtain ⟨hmem, hnone⟩ := hstar
  rw [matchesPattern_iff]
  rintro (hform | ⟨version, hversion, hfull⟩ | ⟨shorthand, hshorthand⟩)
  · exact Comparator.not_mem_of_hasForm hform (by decide) (by decide) (by decide) hmem
  · have hoperand := Partial.star_not_mem_of_isFull hversion hfull
    exact Operator.not_mem_of_spanSign (by decide) hoperand hmem
  · rw [hnone] at hshorthand
    cases hshorthand

/-! ### Reading one token -/

section Token

variable {token : Text} (hblank : ∀ c ∈ token, isBlank c = false)

include hblank

theorem accepted_dropAtLeastZero_iff :
    Accepted (Spacing.dropAtLeastZero token) ↔ Accepted token := by
  rw [Spacing.dropAtLeastZero]
  split
  · next hzero =>
    rw [(Spacing.isAtLeastZero_iff hblank).mp hzero]
    exact iff_of_true ⟨.any, rfl⟩ (by decide)
  · exact Iff.rfl

/-- A single token is read exactly if it is a comparator. -/
theorem tokensRead_tokens_iff : TokensRead (Normal.tokens token) ↔ Accepted token := by
  have hpieces : splitBlanks token = [token] := piecesFrom_eq_singleton hblank false
  have hpart : readPart (Normal.tokens token) = [Spacing.dropAtLeastZero token] := by
    simp [Normal.tokens, hpieces, readPart]
  rw [tokensRead_iff, hpart, List.forall_mem_singleton, accepted_dropAtLeastZero_iff hblank]

/-- A token that is no shorthand is read without its stars. -/
theorem exists_read_iff_of_not_shorthand (hbar : '|' ∉ token)
    (hnone : Shorthand.read? token = none) :
    (∃ range, read token = .ok range) ↔ Accepted (Spacing.dropStars token) := by
  have htexts : alternativeTexts token = [token] := by
    rw [alternativeTexts_eq_singleton hbar, trim_eq_self_of_no_blank hblank]
  have hnormal : Normal.ofAlternative token = .ok (Spacing.dropStars token) := by
    rw [ofAlternative_of_no_blank hblank, Normal.expandToken, hnone]
  have hkept : ∀ c ∈ Spacing.dropStars token, isBlank c = false := fun c hc =>
    hblank c (Spacing.mem_of_mem_dropStars hc)
  rw [exists_read_iff, htexts, List.forall_mem_singleton, hnormal, ← tokensRead_tokens_iff hkept]
  simp

end Token

/-- A token that is read matches a pattern exactly if no star of it is left over by the
shorthands.  A token with such a star matches none, and is read exactly if what is left
of it without its stars is a comparator. -/
theorem token_matches_unless_star_dropped {token : Text}
    (hblank : ∀ c ∈ token, isBlank c = false) (hbar : '|' ∉ token) :
    ((∃ range, read token = .ok range) → (MatchesPattern token ↔ ¬ LeavesStar token)) ∧
      (LeavesStar token → ¬ MatchesPattern token ∧
        ((∃ range, read token = .ok range) ↔ Accepted (Spacing.dropStars token))) := by
  constructor
  · intro hread
    refine ⟨fun hmatches hstar => not_matchesPattern_of_leavesStar hstar hmatches, ?_⟩
    intro hstar
    rw [matchesPattern_iff]
    cases hshorthand : Shorthand.read? token with
    | some shorthand => exact .inr (.inr ⟨shorthand, rfl⟩)
    | none =>
      have hnone : '*' ∉ token := fun hmem => hstar ⟨hmem, hshorthand⟩
      rw [exists_read_iff_of_not_shorthand hblank hbar hshorthand,
        Spacing.dropStars_eq_self hnone] at hread
      obtain ⟨c, hc⟩ := hread
      exact .inl (Comparator.hasForm_of_read hc)
  · exact fun hstar => ⟨not_matchesPattern_of_leavesStar hstar,
      exists_read_iff_of_not_shorthand hblank hbar hstar.2⟩

/-- The star of `>=1.*` makes it a shorthand, and it matches the pattern of comparisons. -/
theorem token_matches_unless_star_dropped_comparison :
    (∃ range, read ">=1.*".toList = .ok range) ∧ MatchesPattern ">=1.*".toList := by
  have hread : ∃ range, read ">=1.*".toList = .ok range :=
    ⟨⟨">=1.*".toList, [[.bound .greaterEqual ⟨1, 0, 0, [], []⟩]]⟩,
      read_of_toOption (by decide +kernel)⟩
  have hblank : ∀ c ∈ ">=1.*".toList, isBlank c = false := by
    have hall : ">=1.*".toList.all (!isBlank ·) = true := by decide
    exact fun c hc => by simpa using List.all_eq_true.mp hall c hc
  have hbar : '|' ∉ ">=1.*".toList := by decide
  have hstar : ¬ LeavesStar ">=1.*".toList := by decide
  exact ⟨hread, ((token_matches_unless_star_dropped hblank hbar).1 hread).mpr hstar⟩

/-- A star behind a full version or inside a number is dropped, and the token is read
although it matches no pattern. -/
theorem dropped_star_matches_nothing :
    read "1.2.3*".toList = .ok ⟨"1.2.3*".toList, [[.bound .equal ⟨1, 2, 3, [], []⟩]]⟩ ∧
      ¬ MatchesPattern "1.2.3*".toList ∧
        read "1.2*0.3".toList = .ok ⟨"1.2*0.3".toList, [[.bound .equal ⟨1, 20, 3, [], []⟩]]⟩ ∧
          ¬ MatchesPattern "1.2*0.3".toList :=
  ⟨read_of_toOption (by decide +kernel), not_matchesPattern_of_leavesStar (by decide),
    read_of_toOption (by decide +kernel), not_matchesPattern_of_leavesStar (by decide)⟩

end Range

end SemanticVersions
