import SemanticVersions.Proofs.Range.Shape

/-!
# Refused tokens

A range is refused for any token that is no comparator, with one gap.  Reading an
alternative ends at the first comparator that nothing satisfies, and what stands
behind it is never looked at.  So a range can read although a token in it is no
comparator, and moving that token to the front of its alternative fails it.
-/

namespace SemanticVersions.Range

def Accepted (token : Text) : Prop :=
  ∃ c, Comparator.read token = .ok c

/-- Whether a token is a comparator that nothing satisfies. -/
def EndsReading (token : Text) : Prop :=
  ∃ c, Comparator.read token = .ok c ∧ c.isNullSet = true

instance : DecidablePred Accepted := fun token =>
  match hread : Comparator.read token with
  | .ok c => .isTrue ⟨c, hread⟩
  | .error _ => .isFalse fun ⟨_, hok⟩ => by simp [hread] at hok

instance : DecidablePred EndsReading := fun token =>
  match hread : Comparator.read token with
  | .ok c => decidable_of_iff (c.isNullSet = true) (by simp [EndsReading, hread])
  | .error _ => .isFalse fun ⟨_, hok, _⟩ => by simp [hread] at hok

/-- The tokens that are looked at: all up to the first one that nothing satisfies. -/
def readPart : List Text → List Text
  | [] => []
  | token :: tokens => if EndsReading token then [token] else token :: readPart tokens

/-- Whether a refused token stands behind one that nothing satisfies. -/
def HidesRefused (tokens : List Text) : Prop :=
  ∃ front token back, tokens = front ++ token :: back ∧ EndsReading token ∧
    ∃ hidden ∈ back, ¬ Accepted hidden

def TokensRead (tokens : List Text) : Prop :=
  ∃ comparators, readTokens [] tokens = .ok comparators

theorem EndsReading.accepted {token : Text} (hends : EndsReading token) : Accepted token := by
  obtain ⟨c, hread, _⟩ := hends
  exact ⟨c, hread⟩

/-! ### Reading tokens -/

/-- Tokens are read exactly if each one that is looked at is accepted. -/
theorem exists_readTokens_iff {known : List Comparator} {tokens : List Text} :
    (∃ comparators, readTokens known tokens = .ok comparators) ↔
      ∀ token ∈ readPart tokens, Accepted token := by
  induction tokens generalizing known with
  | nil => simp [readTokens, readPart]
  | cons token tokens ih =>
    cases hread : Comparator.read token with
    | error cause =>
      have hrefused : ¬ Accepted token := by simp [Accepted, hread]
      have hgoes : ¬ EndsReading token := fun hends => hrefused hends.accepted
      have hfails : readTokens known (token :: tokens) = .error cause := by
        rw [readTokens, hread]
        rfl
      simp [hfails, readPart, hgoes, hrefused]
    | ok c =>
      have haccepted : Accepted token := ⟨c, hread⟩
      rw [readTokens_cons hread]
      by_cases hnull : c.isNullSet = true
      · have hends : EndsReading token := ⟨c, hread, hnull⟩
        simp [hnull, readPart, hends, haccepted]
      · have hgoes : ¬ EndsReading token := by simp [EndsReading, hread, hnull]
        have hrest : (∀ other ∈ readPart (token :: tokens), Accepted other) ↔
            ∀ other ∈ readPart tokens, Accepted other := by
          simp [readPart, hgoes, haccepted]
        rw [if_neg hnull, hrest]
        split
        · exact ih
        · exact ih

theorem tokensRead_iff {tokens : List Text} :
    TokensRead tokens ↔ ∀ token ∈ readPart tokens, Accepted token :=
  exists_readTokens_iff

theorem readPart_subset {tokens : List Text} : readPart tokens ⊆ tokens := by
  induction tokens with
  | nil => simp [readPart]
  | cons token tokens ih =>
    rw [readPart]
    split
    · simp
    · exact List.cons_subset_cons token ih

/-- All tokens are looked at if none is a comparator that nothing satisfies. -/
theorem readPart_eq_self {tokens : List Text} (hnone : ∀ token ∈ tokens, ¬ EndsReading token) :
    readPart tokens = tokens := by
  induction tokens with
  | nil => rfl
  | cons token tokens ih =>
    rw [readPart, if_neg (hnone token (by simp)),
      ih fun other hother => hnone other (by simp [hother])]

/-- Of tokens that read, a refused one is hidden. -/
theorem hidesRefused_of_tokensRead {tokens : List Text} (hread : TokensRead tokens)
    {token : Text} (hmem : token ∈ tokens) (hrefused : ¬ Accepted token) :
    HidesRefused tokens := by
  rw [tokensRead_iff] at hread
  induction tokens with
  | nil => cases hmem
  | cons first tokens ih =>
    by_cases hends : EndsReading first
    · refine ⟨[], first, tokens, rfl, hends, token, ?_, hrefused⟩
      refine (List.mem_cons.mp hmem).resolve_left ?_
      rintro rfl
      exact hrefused hends.accepted
    · rw [readPart, if_neg hends] at hread
      have hlater : token ∈ tokens := by
        refine (List.mem_cons.mp hmem).resolve_left ?_
        rintro rfl
        exact hrefused (hread token (by simp))
      obtain ⟨front, null, back, rfl, hnull, hhidden⟩ :=
        ih (fun other hother => hread other (by simp [hother])) hlater
      exact ⟨first :: front, null, back, rfl, hnull, hhidden⟩

/-- Tokens that are read are all accepted unless one that nothing satisfies hides a refused one. -/
theorem all_accepted_iff_of_tokensRead {tokens : List Text} (hread : TokensRead tokens) :
    (∀ token ∈ tokens, Accepted token) ↔ ¬ HidesRefused tokens := by
  constructor
  · rintro hall ⟨front, token, back, rfl, _, hidden, hmem, hrefused⟩
    exact hrefused (hall hidden (by simp [hmem]))
  · intro hnone token hmem
    apply Decidable.byContradiction
    exact fun hrefused => hnone (hidesRefused_of_tokensRead hread hmem hrefused)

/-! ### The order of tokens -/

theorem tokensRead_of_all_accepted {tokens : List Text}
    (hall : ∀ token ∈ tokens, Accepted token) : TokensRead tokens :=
  tokensRead_iff.mpr fun token hmem => hall token (readPart_subset hmem)

/-- In front of all others, a token that nothing satisfies is the only one read, and a
refused token fails them all. -/
theorem tokensRead_cons_iff {token : Text} (tokens : List Text)
    (hfirst : EndsReading token ∨ ¬ Accepted token) :
    TokensRead (token :: tokens) ↔ EndsReading token := by
  rw [tokensRead_iff, readPart]
  cases hfirst with
  | inl hends => simp [hends, hends.accepted]
  | inr hrefused =>
    have hgoes : ¬ EndsReading token := fun hends => hrefused hends.accepted
    simp [hgoes, hrefused]

/-- The order of tokens counts exactly if some token is refused and some other one
ends the reading. -/
theorem order_free_iff {tokens : List Text} :
    (∀ others, others.Perm tokens → (TokensRead others ↔ TokensRead tokens)) ↔
      ¬ ((∃ token ∈ tokens, EndsReading token) ∧ ∃ token ∈ tokens, ¬ Accepted token) := by
  constructor
  · rintro hfree ⟨⟨ends, hends, hnull⟩, ⟨refused, hmem, hrefused⟩⟩
    have hreads := hfree _ (List.perm_cons_erase hends).symm
    have hfails := hfree _ (List.perm_cons_erase hmem).symm
    rw [tokensRead_cons_iff _ (.inl hnull)] at hreads
    rw [tokensRead_cons_iff _ (.inr hrefused)] at hfails
    exact hrefused (hfails.mpr (hreads.mp hnull)).accepted
  · intro hnot others hperm
    by_cases hrefused : ∃ token ∈ tokens, ¬ Accepted token
    · have hnone : ∀ token ∈ tokens, ¬ EndsReading token := fun token hmem hends =>
        hnot ⟨⟨token, hmem, hends⟩, hrefused⟩
      have hnoneOthers : ∀ token ∈ others, ¬ EndsReading token := fun token hmem =>
        hnone token (hperm.mem_iff.mp hmem)
      rw [tokensRead_iff, tokensRead_iff, readPart_eq_self hnone, readPart_eq_self hnoneOthers]
      exact forall_congr' fun token => by rw [hperm.mem_iff]
    · have hall : ∀ token ∈ tokens, Accepted token := by
        intro token hmem
        apply Decidable.byContradiction
        exact fun htoken => hrefused ⟨token, hmem, htoken⟩
      have hallOthers : ∀ token ∈ others, Accepted token := fun token hmem =>
        hall token (hperm.mem_iff.mp hmem)
      exact iff_of_true (tokensRead_of_all_accepted hallOthers) (tokensRead_of_all_accepted hall)

/-! ### Reading a range -/

/-- An alternative is read exactly if it has a normal form whose tokens are read. -/
theorem exists_readAlternative_iff {alternative : Text} :
    (∃ comparators, readAlternative alternative = .ok comparators) ↔
      ∃ normal, Normal.ofAlternative alternative = .ok normal ∧
        TokensRead (Normal.tokens normal) := by
  cases hnormal : Normal.ofAlternative alternative with
  | error cause =>
    have hfails : readAlternative alternative = .error cause := by
      rw [readAlternative, hnormal]
      rfl
    simp [hfails]
  | ok normal =>
    have hreads : readAlternative alternative =
        (readTokens [] (Normal.tokens normal)).map dropAny := by
      rw [readAlternative, hnormal]
      rfl
    rw [hreads]
    cases htokens : readTokens [] (Normal.tokens normal) with
    | error cause => simp [TokensRead, htokens, Except.map]
    | ok comparators => simp [TokensRead, htokens, Except.map]

/-- A range is read exactly if all its alternatives are. -/
theorem exists_read_iff {source : Text} :
    (∃ range, read source = .ok range) ↔
      ∀ alternative ∈ alternativeTexts source, ∃ normal,
        Normal.ofAlternative alternative = .ok normal ∧ TokensRead (Normal.tokens normal) := by
  have hmap : (∃ range, read source = .ok range) ↔
      ∃ alternatives, (alternativeTexts source).mapM readAlternative = .ok alternatives := by
    simp only [read_eq_ok_iff]
    exact ⟨fun ⟨_, alternatives, hread, _⟩ => ⟨alternatives, hread⟩,
      fun ⟨alternatives, hread⟩ => ⟨_, alternatives, hread, rfl⟩⟩
  rw [hmap, exists_mapM_iff]
  exact forall_congr' fun alternative => forall_congr' fun _ => exists_readAlternative_iff

/-- A range reads exactly if each alternative has a normal form of which all tokens are
comparators that stand in front of the first one that nothing satisfies, this one
included.  Its tokens are then comparators without exception unless a refused one is
hidden behind such a comparator; and the order of the tokens of an alternative counts
only if it has both a comparator that nothing satisfies and a refused token. -/
theorem refused_unless_hidden (source : Text) :
    ((∃ range, read source = .ok range) ↔
        ∀ alternative ∈ alternativeTexts source, ∃ normal,
          Normal.ofAlternative alternative = .ok normal ∧
            ∀ token ∈ readPart (Normal.tokens normal), Accepted token) ∧
      ((∃ range, read source = .ok range) →
        ∀ alternative ∈ alternativeTexts source, ∃ normal,
          Normal.ofAlternative alternative = .ok normal ∧
            ((∀ token ∈ Normal.tokens normal, Accepted token) ↔
              ¬ HidesRefused (Normal.tokens normal))) ∧
      ∀ alternative ∈ alternativeTexts source, ∀ normal,
        Normal.ofAlternative alternative = .ok normal →
          ((∀ others, others.Perm (Normal.tokens normal) →
              (TokensRead others ↔ TokensRead (Normal.tokens normal))) ↔
            ¬ ((∃ token ∈ Normal.tokens normal, EndsReading token) ∧
              ∃ token ∈ Normal.tokens normal, ¬ Accepted token)) := by
  refine ⟨?_, ?_, fun _ _ _ _ => order_free_iff⟩
  · simp only [exists_read_iff, tokensRead_iff]
  · rw [exists_read_iff]
    intro hread alternative hmem
    obtain ⟨normal, hnormal, htokens⟩ := hread alternative hmem
    exact ⟨normal, hnormal, all_accepted_iff_of_tokensRead htokens⟩

/-- Behind `<0.0.0-0` stands a comparator, so nothing is hidden and the order is free. -/
theorem refused_unless_hidden_null_set :
    (∃ range, read "<0.0.0-0 >=1.2.3".toList = .ok range) ∧
      ¬ HidesRefused ["<0.0.0-0".toList, ">=1.2.3".toList] ∧
        ∀ others, others.Perm ["<0.0.0-0".toList, ">=1.2.3".toList] → TokensRead others := by
  have hread : ∃ range, read "<0.0.0-0 >=1.2.3".toList = .ok range :=
    ⟨⟨"<0.0.0-0 >=1.2.3".toList, [[.nullSet]]⟩, read_of_toOption (by decide +kernel)⟩
  have hmem : "<0.0.0-0 >=1.2.3".toList ∈ alternativeTexts "<0.0.0-0 >=1.2.3".toList := by
    decide
  have hnormal : Normal.ofAlternative "<0.0.0-0 >=1.2.3".toList =
      .ok "<0.0.0-0 >=1.2.3".toList := by decide +kernel
  have htokens : Normal.tokens "<0.0.0-0 >=1.2.3".toList =
      ["<0.0.0-0".toList, ">=1.2.3".toList] := by decide
  have hall : ∀ token ∈ ["<0.0.0-0".toList, ">=1.2.3".toList], Accepted token := by
    decide
  obtain ⟨_, hhidden, horder⟩ := refused_unless_hidden "<0.0.0-0 >=1.2.3".toList
  obtain ⟨normal, hsame, hiff⟩ := hhidden hread _ hmem
  obtain rfl : "<0.0.0-0 >=1.2.3".toList = normal := Except.ok.inj (hnormal.symm.trans hsame)
  have hfree := (horder _ hmem _ hnormal).mpr fun hboth => by
    obtain ⟨token, htoken, hrefused⟩ := hboth.2
    rw [htokens] at htoken
    exact hrefused (hall token htoken)
  rw [htokens] at hiff hfree
  refine ⟨hread, hiff.mp hall, fun others hperm => (hfree others hperm).mpr ?_⟩
  exact tokensRead_of_all_accepted hall

/-- Behind `<0.0.0-0` a token that is no comparator is not refused; in front of it, it
is. -/
theorem null_set_hides_refused :
    ∃ range, read "<0.0.0-0 foo".toList = .ok range ∧
      Normal.ofAlternative "<0.0.0-0 foo".toList = .ok "<0.0.0-0 foo".toList ∧
        "foo".toList ∈ Normal.tokens "<0.0.0-0 foo".toList ∧
          Comparator.read "foo".toList = .error (.invalidComparator "foo".toList) ∧
            read "foo <0.0.0-0".toList = .error (.invalidComparator "foo".toList) :=
  ⟨⟨"<0.0.0-0 foo".toList, [[.nullSet]]⟩, read_of_toOption (by decide +kernel),
    by decide +kernel, by decide, by decide, by decide +kernel⟩

end SemanticVersions.Range
