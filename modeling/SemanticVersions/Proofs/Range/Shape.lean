import SemanticVersions.Proofs.Comparator.Format
import SemanticVersions.Proofs.Traversal
import SemanticVersions.Range.Reader

/-!
# The shape of ranges that were read

Reading leaves each alternative with distinct comparators, and a comparator
without condition or one that nothing satisfies only where it stands alone.
The same holds one level up: an alternative of either kind is the only one of
its range.  These two facts are all that the properties of ranges need to know
about reading.
-/

namespace SemanticVersions.Range

open Comparator

/-- Comparators as they are collected while an alternative is read. -/
structure Collected (comparators : List Comparator) : Prop where
  wellFormed : ∀ c ∈ comparators, c.WellFormed
  satisfiable : ∀ c ∈ comparators, c.isNullSet = false
  distinct : (comparators.map Comparator.text).Nodup

/-- An alternative as it is left by reading. -/
structure Simplified (comparators : List Comparator) : Prop where
  nonempty : comparators ≠ []
  wellFormed : ∀ c ∈ comparators, c.WellFormed
  distinct : (comparators.map Comparator.text).Nodup
  any_alone : .any ∈ comparators → comparators = [.any]
  null_alone : ∀ c ∈ comparators, c.isNullSet = true → comparators = [c]

/-- The alternatives of a range as they are left by reading. -/
structure Reduced (alternatives : List (List Comparator)) : Prop where
  nonempty : alternatives ≠ []
  simplified : ∀ comparators ∈ alternatives, Simplified comparators
  any_alone : [.any] ∈ alternatives → alternatives = [[.any]]
  null_alone : ∀ comparators ∈ alternatives,
    isNullAlternative comparators = true → alternatives = [comparators]

theorem test_iff {range : Range} {v : Version} :
    range.test v = true ↔ ∃ comparators ∈ range.alternatives, testAll comparators v = true := by
  simp [test]

/-! ### Reading the tokens of an alternative -/

theorem hasText_eq_false_iff {known : List Comparator} {c : Comparator} :
    hasText known c = false ↔ c.text ∉ known.map Comparator.text := by
  simp [hasText]

/-- A token ends the reading, repeats a known comparator, or adds one. -/
theorem readTokens_cons {token : Text} {c : Comparator}
    (hread : Comparator.read token = .ok c) (known : List Comparator) (tokens : List Text) :
    readTokens known (token :: tokens) =
      if c.isNullSet then .ok [c]
      else if hasText known c then readTokens known tokens
      else readTokens (known ++ [c]) tokens := by
  rw [readTokens, hread]
  rfl

theorem Collected.append {known : List Comparator} (hknown : Collected known) {c : Comparator}
    (hc : c.WellFormed) (hnull : c.isNullSet = false) (hnew : hasText known c = false) :
    Collected (known ++ [c]) where
  wellFormed :=
    List.forall_mem_append.mpr ⟨hknown.wellFormed, List.forall_mem_singleton.mpr hc⟩
  satisfiable :=
    List.forall_mem_append.mpr ⟨hknown.satisfiable, List.forall_mem_singleton.mpr hnull⟩
  distinct := by
    rw [List.map_append, List.nodup_append]
    refine ⟨hknown.distinct, by simp, ?_⟩
    intro first hfirst second hsecond heq
    apply hasText_eq_false_iff.mp hnew
    simp only [List.map_cons, List.map_nil, List.mem_singleton] at hsecond
    rwa [← hsecond, ← heq]

/-- Reading stops at a comparator that nothing satisfies, or collects all. -/
theorem readTokens_shape {known comparators : List Comparator} {tokens : List Text}
    (hknown : Collected known) (hne : known ≠ [] ∨ tokens ≠ [])
    (hread : readTokens known tokens = .ok comparators) :
    (∃ c, comparators = [c] ∧ c.WellFormed ∧ c.isNullSet = true) ∨
      (Collected comparators ∧ comparators ≠ []) := by
  induction tokens generalizing known with
  | nil =>
    cases hread
    exact .inr ⟨hknown, hne.resolve_right (by simp)⟩
  | cons token tokens ih =>
    cases htoken : Comparator.read token with
    | error cause =>
      rw [readTokens, htoken] at hread
      cases hread
    | ok c =>
      have hc := Comparator.wellFormed_of_read htoken
      rw [readTokens_cons htoken] at hread
      by_cases hnull : c.isNullSet = true
      · rw [if_pos hnull] at hread
        cases hread
        exact .inl ⟨c, rfl, hc, hnull⟩
      rw [if_neg hnull] at hread
      by_cases hrepeated : hasText known c = true
      · rw [if_pos hrepeated] at hread
        have hsome : known ≠ [] := by
          rintro rfl
          cases hrepeated
        exact ih hknown (.inl hsome) hread
      · rw [if_neg hrepeated] at hread
        have hnew := Bool.eq_false_iff.mpr hrepeated
        exact ih (hknown.append hc (Bool.eq_false_iff.mpr hnull) hnew) (.inl (by simp)) hread

/-- Each comparator that is read was known before or comes from a token. -/
theorem mem_of_readTokens {known comparators : List Comparator} {tokens : List Text}
    (hread : readTokens known tokens = .ok comparators) :
    ∀ c ∈ comparators, c ∈ known ∨ ∃ token ∈ tokens, Comparator.read token = .ok c := by
  induction tokens generalizing known with
  | nil =>
    cases hread
    exact fun c hc => .inl hc
  | cons token tokens ih =>
    cases htoken : Comparator.read token with
    | error cause =>
      rw [readTokens, htoken] at hread
      cases hread
    | ok first =>
      rw [readTokens_cons htoken] at hread
      intro c hc
      by_cases hnull : first.isNullSet = true
      · rw [if_pos hnull] at hread
        cases hread
        rw [List.mem_singleton.mp hc]
        exact .inr ⟨token, by simp, htoken⟩
      rw [if_neg hnull] at hread
      split at hread
      · rcases ih hread c hc with hknown | ⟨later, hlater, hc⟩
        · exact .inl hknown
        · exact .inr ⟨later, by simp [hlater], hc⟩
      · rcases ih hread c hc with hknown | ⟨later, hlater, hc⟩
        · rcases List.mem_append.mp hknown with hknown | hfirst
          · exact .inl hknown
          · rw [List.mem_singleton.mp hfirst]
            exact .inr ⟨token, by simp, htoken⟩
        · exact .inr ⟨later, by simp [hlater], hc⟩

theorem simplified_singleton {c : Comparator} (hc : c.WellFormed) : Simplified [c] where
  nonempty := by simp
  wellFormed d hd := by rwa [List.mem_singleton.mp hd]
  distinct := by simp
  any_alone hany := by rw [← List.mem_singleton.mp hany]
  null_alone d hd _ := by rw [List.mem_singleton.mp hd]

theorem mem_of_mem_dropAny {comparators : List Comparator} {c : Comparator}
    (hc : c ∈ dropAny comparators) : c ∈ comparators := by
  rw [dropAny] at hc
  split at hc
  · exact (List.mem_filter.mp hc).1
  · exact hc

/-- Dropping what is no condition leaves a simplified alternative. -/
theorem Collected.dropAny {comparators : List Comparator} (hcollected : Collected comparators)
    (hne : comparators ≠ []) : Simplified (dropAny comparators) := by
  have hkept : ∀ c ∈ Range.dropAny comparators, c ∈ comparators := fun c hc =>
    mem_of_mem_dropAny hc
  have hdistinct : ((Range.dropAny comparators).map Comparator.text).Nodup := by
    rw [Range.dropAny]
    split
    · exact hcollected.distinct.sublist (List.filter_sublist.map Comparator.text)
    · exact hcollected.distinct
  have hwell : ∀ c ∈ Range.dropAny comparators, c.WellFormed := fun c hc =>
    hcollected.wellFormed c (hkept c hc)
  have hnull : ∀ c ∈ Range.dropAny comparators, c.isNullSet = true →
      Range.dropAny comparators = [c] := fun c hc htrue => by
    rw [hcollected.satisfiable c (hkept c hc)] at htrue
    cases htrue
  match comparators, hne with
  | [c], _ => exact simplified_singleton (hcollected.wellFormed c (by simp))
  | first :: second :: rest, _ =>
    have hfilter : Range.dropAny (first :: second :: rest) =
        (first :: second :: rest).filter (!·.isAny) := by
      rw [Range.dropAny, if_pos (by simp)]
    refine ⟨?_, hwell, hdistinct, ?_, hnull⟩
    · -- Two comparators without condition would have one text.
      have hdiffer : first.text ≠ second.text := by
        have hhead := (List.nodup_cons.mp hcollected.distinct).1
        exact fun heq => hhead (by rw [heq]; simp)
      rw [hfilter]
      intro hnil
      have hall := List.filter_eq_nil_iff.mp hnil
      have hfirst := hall first (by simp)
      have hsecond := hall second (by simp)
      cases first with
      | any =>
        cases second with
        | any => exact hdiffer rfl
        | bound operator version => exact hsecond rfl
      | bound operator version => exact hfirst rfl
    · intro hany
      rw [hfilter] at hany
      exact absurd (List.mem_filter.mp hany).2 (by decide)

/-- A simplified alternative has no comparator left to drop. -/
theorem Simplified.dropAny_eq_self {comparators : List Comparator}
    (hsimplified : Simplified comparators) : Range.dropAny comparators = comparators := by
  rw [Range.dropAny]
  split
  · next hseveral =>
    rw [List.filter_eq_self]
    intro c hc
    cases c with
    | any =>
      rw [hsimplified.any_alone hc] at hseveral
      exact absurd hseveral (by decide)
    | bound operator version => rfl
  · rfl

theorem tokens_ne_nil (normal : Text) : Normal.tokens normal ≠ [] := by
  simp [Normal.tokens, splitBlanks_ne_nil]

theorem simplified_of_readNormal {normal : Text} {comparators : List Comparator}
    (hread : readNormal normal = .ok comparators) : Simplified comparators := by
  cases htokens : readTokens [] (Normal.tokens normal) with
  | error cause =>
    rw [readNormal, htokens] at hread
    cases hread
  | ok collected =>
    rw [readNormal, htokens] at hread
    obtain rfl : Range.dropAny collected = comparators := Except.ok.inj hread
    have hempty : Collected [] := ⟨by simp, by simp, by simp⟩
    rcases readTokens_shape hempty (.inr (tokens_ne_nil normal)) htokens with
      ⟨c, rfl, hc, _⟩ | ⟨hcollected, hne⟩
    · exact simplified_singleton hc
    · exact hcollected.dropAny hne

theorem readAlternative_eq_ok {alternative : Text} {comparators : List Comparator}
    (hread : readAlternative alternative = .ok comparators) :
    ∃ normal collected, Normal.ofAlternative alternative = .ok normal ∧
      readTokens [] (Normal.tokens normal) = .ok collected ∧ comparators = dropAny collected := by
  unfold readAlternative readNormal at hread
  cases hnormal : Normal.ofAlternative alternative with
  | error cause =>
    rw [hnormal] at hread
    cases hread
  | ok normal =>
    simp only [hnormal, bind, Except.bind] at hread
    cases htokens : readTokens [] (Normal.tokens normal) with
    | error cause =>
      rw [htokens] at hread
      cases hread
    | ok collected =>
      rw [htokens] at hread
      exact ⟨normal, collected, rfl, htokens, (Except.ok.inj hread).symm⟩

theorem simplified_of_readAlternative {alternative : Text} {comparators : List Comparator}
    (hread : readAlternative alternative = .ok comparators) : Simplified comparators := by
  cases hnormal : Normal.ofAlternative alternative with
  | error cause =>
    rw [readAlternative, hnormal] at hread
    cases hread
  | ok normal =>
    rw [readAlternative, hnormal] at hread
    exact simplified_of_readNormal hread

/-! ### Simplifying alternatives -/

section Simplify

variable {alternatives : List (List Comparator)}

theorem mem_of_mem_simplify {comparators : List Comparator}
    (hmem : comparators ∈ simplify alternatives) : comparators ∈ alternatives := by
  have hsubset : ∀ several, several = satisfiableAlternatives alternatives →
      ∀ cs ∈ several, cs ∈ alternatives := by
    rintro several rfl cs hcs
    exact (List.mem_filter.mp hcs).1
  unfold simplify at hmem
  split at hmem
  · next first second rest =>
    split at hmem
    · rw [List.mem_singleton.mp hmem]
      simp
    · next only hkept =>
      rw [List.mem_singleton.mp hmem]
      exact hsubset [only] hkept.symm only (by simp)
    · split at hmem
      · next hany =>
        rw [List.mem_singleton.mp hmem]
        exact hsubset _ rfl _ (by simpa using hany)
      · exact hsubset _ rfl _ hmem
  · exact hmem

/-- An alternative without condition stands for all. -/
theorem simplify_of_mem_any (hany : [.any] ∈ alternatives) : simplify alternatives = [[.any]] := by
  have hkept : [.any] ∈ satisfiableAlternatives alternatives :=
    List.mem_filter.mpr ⟨hany, rfl⟩
  unfold simplify
  split
  · split
    · next hnone =>
      rw [hnone] at hkept
      cases hkept
    · next only honly =>
      rw [honly, List.mem_singleton] at hkept
      rw [← hkept]
    · rw [if_pos (by simpa using hkept)]
  · next hshort =>
    match alternatives, hany with
    | [only], hany => rw [List.mem_singleton.mp hany]
    | first :: second :: rest, _ => exact absurd rfl (hshort first second rest)

/-- If no alternative is without condition, those that something may satisfy are
kept, or else a first one that nothing satisfies. -/
theorem simplify_of_not_mem_any (hany : [.any] ∉ alternatives) (hne : alternatives ≠ []) :
    (satisfiableAlternatives alternatives ≠ [] ∧
        simplify alternatives = satisfiableAlternatives alternatives) ∨
      ∃ first ∈ alternatives, satisfiableAlternatives alternatives = [] ∧
        isNullAlternative first = true ∧ simplify alternatives = [first] := by
  have hnull : ∀ first ∈ alternatives, satisfiableAlternatives alternatives = [] →
      isNullAlternative first = true := by
    intro first hfirst hnone
    simpa using List.filter_eq_nil_iff.mp hnone first hfirst
  have hkept : [.any] ∉ satisfiableAlternatives alternatives := fun hmem =>
    hany (List.mem_filter.mp hmem).1
  unfold simplify
  split
  · next first second rest =>
    split
    · next hnone => exact .inr ⟨first, by simp, hnone, hnull first (by simp) hnone, rfl⟩
    · next only honly => exact .inl ⟨by simp [honly], honly.symm⟩
    · next _ hsome _ =>
      rw [if_neg (by simpa using hkept)]
      exact .inl ⟨hsome, rfl⟩
  · next hshort =>
    match alternatives, hne with
    | [only], _ =>
      by_cases honly : isNullAlternative only = true
      · exact .inr ⟨only, by simp, by simp [satisfiableAlternatives, honly], honly, rfl⟩
      · left
        simp [satisfiableAlternatives, honly]
    | first :: second :: rest, _ => exact absurd rfl (hshort first second rest)

/-- Simplifying alternatives leaves reduced ones. -/
theorem reduced_simplify (hne : alternatives ≠ [])
    (hsimplified : ∀ comparators ∈ alternatives, Simplified comparators) :
    Reduced (simplify alternatives) := by
  have hmember : ∀ comparators ∈ simplify alternatives, Simplified comparators := fun cs hcs =>
    hsimplified cs (mem_of_mem_simplify hcs)
  by_cases hany : [.any] ∈ alternatives
  · have hsimplify := simplify_of_mem_any hany
    refine ⟨by simp [hsimplify], hmember, fun _ => hsimplify, ?_⟩
    intro cs hcs hnull
    rw [hsimplify, List.mem_singleton] at hcs
    subst hcs
    cases hnull
  have hnotAny : [.any] ∉ simplify alternatives := fun hmem => hany (mem_of_mem_simplify hmem)
  rcases simplify_of_not_mem_any hany hne with ⟨hsome, hkept⟩ | ⟨first, _, _, hnull, hfirst⟩
  · refine ⟨by rwa [hkept], hmember, fun hmem => absurd hmem hnotAny, ?_⟩
    intro cs hcs hnull
    rw [hkept] at hcs
    have hnot := (List.mem_filter.mp hcs).2
    rw [hnull] at hnot
    cases hnot
  · refine ⟨by simp [hfirst], hmember, fun hmem => absurd hmem hnotAny, ?_⟩
    intro cs hcs _
    rw [hfirst, List.mem_singleton] at hcs
    rw [hfirst, hcs]

/-- Alternatives that were simplified once stay as they are. -/
theorem Reduced.simplify_eq_self (hreduced : Reduced alternatives) :
    simplify alternatives = alternatives := by
  by_cases hany : [.any] ∈ alternatives
  · rw [simplify_of_mem_any hany, hreduced.any_alone hany]
  · rcases simplify_of_not_mem_any hany hreduced.nonempty with
      ⟨hsome, hkept⟩ | ⟨first, hfirst, _, hnull, honly⟩
    · rw [hkept, satisfiableAlternatives, List.filter_eq_self]
      intro cs hcs
      cases hnull : isNullAlternative cs with
      | false => rfl
      | true =>
        exfalso
        apply hsome
        rw [hreduced.null_alone cs hcs hnull]
        simp [satisfiableAlternatives, hnull]
    · rw [honly, hreduced.null_alone first hfirst hnull]

end Simplify

/-! ### Reading a range -/

theorem simplified_of_mapM {texts : List Text} {alternatives : List (List Comparator)}
    (hread : texts.mapM readAlternative = .ok alternatives) :
    ∀ comparators ∈ alternatives, Simplified comparators := by
  intro cs hcs
  obtain ⟨_, _, halternative⟩ := (mem_mapM_iff hread).mp hcs
  exact simplified_of_readAlternative halternative

theorem alternativeTexts_ne_nil (text : Text) : alternativeTexts text ≠ [] := by
  simp [alternativeTexts, splitBars_ne_nil]

theorem alternatives_ne_nil {text : Text} {alternatives : List (List Comparator)}
    (hread : (alternativeTexts text).mapM readAlternative = .ok alternatives) :
    alternatives ≠ [] :=
  ne_nil_of_mapM hread (alternativeTexts_ne_nil text)

/-- A range is read from its alternatives; it never lacks one. -/
theorem read_of_mapM {text : Text} {alternatives : List (List Comparator)}
    (hread : (alternativeTexts text).mapM readAlternative = .ok alternatives) :
    read text = .ok ⟨text, simplify alternatives⟩ := by
  have hfilter : alternatives.filter (!·.isEmpty) = alternatives := by
    rw [List.filter_eq_self]
    intro cs hcs
    simpa using (simplified_of_mapM hread cs hcs).nonempty
  have hsome : alternatives.isEmpty = false :=
    List.isEmpty_eq_false_iff.mpr (alternatives_ne_nil hread)
  rw [read, hread]
  change (if (alternatives.filter (!·.isEmpty)).isEmpty then _ else _) = _
  rw [hfilter, if_neg (by simp [hsome])]
  rfl

theorem alternativeTexts_eq_singleton {text : Text} (hbar : '|' ∉ text) :
    alternativeTexts text = [trim text] := by
  rw [alternativeTexts, splitBars_eq_singleton hbar, List.map_singleton]

/-- A range of one alternative is read as the alternative is. -/
theorem read_eq_of_singleton {text alternative : Text}
    (htexts : alternativeTexts text = [alternative]) :
    read text = (readAlternative alternative).map fun comparators => ⟨text, [comparators]⟩ := by
  cases hread : readAlternative alternative with
  | error cause =>
    rw [read, htexts, List.mapM_cons, hread]
    rfl
  | ok comparators =>
    have hmap : (alternativeTexts text).mapM readAlternative = .ok [comparators] := by
      rw [htexts, List.mapM_cons, hread]
      rfl
    exact read_of_mapM hmap

/-- A text is read as the simplified alternatives that its parts are read as. -/
theorem read_eq_ok_iff {text : Text} {range : Range} :
    read text = .ok range ↔
      ∃ alternatives, (alternativeTexts text).mapM readAlternative = .ok alternatives ∧
        range = ⟨text, simplify alternatives⟩ := by
  constructor
  · intro hread
    cases hmap : (alternativeTexts text).mapM readAlternative with
    | error cause =>
      rw [read, hmap] at hread
      cases hread
    | ok alternatives =>
      rw [read_of_mapM hmap] at hread
      exact ⟨alternatives, rfl, (Except.ok.inj hread).symm⟩
  · rintro ⟨alternatives, hmap, rfl⟩
    exact read_of_mapM hmap

/-- Reading can be evaluated where its result is wanted. -/
theorem read_of_toOption {text : Text} {range : Range}
    (hread : (read text).toOption = some range) : read text = .ok range := by
  cases hresult : read text with
  | error cause =>
    rw [hresult] at hread
    cases hread
  | ok found =>
    rw [hresult] at hread
    exact congrArg Except.ok (Option.some.inj hread)

/-- The alternatives of a range that was read are reduced. -/
theorem reduced_of_read {text : Text} {range : Range} (hread : read text = .ok range) :
    Reduced range.alternatives := by
  obtain ⟨alternatives, hmap, rfl⟩ := read_eq_ok_iff.mp hread
  exact reduced_simplify (alternatives_ne_nil hmap) (simplified_of_mapM hmap)

end SemanticVersions.Range
