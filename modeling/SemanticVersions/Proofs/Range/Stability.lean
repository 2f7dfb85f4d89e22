import SemanticVersions.Document
import SemanticVersions.Proofs.Range.Normal
import SemanticVersions.Proofs.Range.Shape

/-!
# Reading canonical texts again

The canonical text of a range always reads, and gives the same alternatives
without their builds, with one exception.  The bound `>=0.0.0` is dropped where
it is written just so, but not where a `v` or a build is written with it; the
canonical text of the latter is the former.  So a range is stable exactly if
none of its comparators is `>=0.0.0`.
-/

namespace SemanticVersions

/-! ### The bound that is dropped -/

theorem Spacing.isAtLeastZero_iff {token : Text} (htoken : ∀ c ∈ token, isBlank c = false) :
    isAtLeastZero token = true ↔ token = ['>', '=', '0', '.', '0', '.', '0'] := by
  rw [isAtLeastZero, trim_eq_self_of_no_blank htoken]
  constructor
  · intro hzero
    split at hzero
    · next rest =>
      have hrest : trimStart rest = rest := by
        apply trimStart_eq_self
        intro c hc
        exact htoken c (by simp [List.mem_of_mem_head? hc])
      rw [hrest, beq_iff_eq] at hzero
      rw [hzero]
    · cases hzero
  · rintro rfl
    decide

namespace Comparator

/-- Whether a comparator is `>=0.0.0`, with any build. -/
def isAtLeastZero : Comparator → Bool
  | bound .greaterEqual ⟨0, 0, 0, [], _⟩ => true
  | _ => false

/-- What the canonical text of a comparator is read as in a range. -/
def reread (c : Comparator) : Comparator :=
  if c.isAtLeastZero then any else c.withoutBuild

theorem isAtLeastZero_iff {c : Comparator} :
    c.isAtLeastZero = true ↔ ∃ build, c = bound .greaterEqual ⟨0, 0, 0, [], build⟩ := by
  unfold isAtLeastZero
  split
  · next build => exact ⟨fun _ => ⟨build, rfl⟩, fun _ => rfl⟩
  · next hother =>
    refine ⟨fun hfalse => Bool.noConfusion hfalse, ?_⟩
    rintro ⟨build, rfl⟩
    exact absurd rfl (hother build)

/-- The bound `>=0.0.0` is known by its canonical text. -/
theorem isAtLeastZero_iff_text {c : Comparator} (hc : c.WellFormed) :
    c.isAtLeastZero = true ↔ c.text = ['>', '=', '0', '.', '0', '.', '0'] := by
  constructor
  · intro hzero
    obtain ⟨build, rfl⟩ := isAtLeastZero_iff.mp hzero
    change (bound .greaterEqual ⟨0, 0, 0, [], []⟩).text = _
    decide
  · intro htext
    have hzero : (bound .greaterEqual ⟨0, 0, 0, [], []⟩).WellFormed := ⟨rfl, by decide⟩
    have hwritten : (bound .greaterEqual ⟨0, 0, 0, [], []⟩).text =
        ['>', '=', '0', '.', '0', '.', '0'] := by decide
    have hsame := withoutBuild_eq_of_text_eq hc hzero (htext.trans hwritten.symm)
    apply isAtLeastZero_iff.mpr
    cases c with
    | any => cases hsame
    | bound operator version =>
      cases version
      simp_all [withoutBuild]

theorem isAtLeastZero_withoutBuild (c : Comparator) :
    c.withoutBuild.isAtLeastZero = c.isAtLeastZero := by
  cases c with
  | any => rfl
  | bound operator version =>
    rw [Bool.eq_iff_iff, isAtLeastZero_iff, isAtLeastZero_iff]
    cases version
    simp [withoutBuild]

theorem isAtLeastZero_reread (c : Comparator) : c.reread.isAtLeastZero = false := by
  rw [reread]
  split
  · rfl
  · next hzero =>
    rw [isAtLeastZero_withoutBuild]
    exact Bool.eq_false_iff.mpr hzero

theorem text_reread (c : Comparator) :
    c.reread.text = if c.isAtLeastZero then [] else c.text := by
  rw [reread]
  split
  · rfl
  · exact text_withoutBuild c

theorem dropAtLeastZero_text {c : Comparator} (hc : c.WellFormed) :
    Spacing.dropAtLeastZero c.text = c.reread.text := by
  have hzero : Spacing.isAtLeastZero c.text = c.isAtLeastZero := by
    rw [Bool.eq_iff_iff, Spacing.isAtLeastZero_iff (not_isBlank_of_mem_text hc),
      isAtLeastZero_iff_text hc]
  rw [Spacing.dropAtLeastZero, hzero, text_reread]

/-- The canonical text of a comparator is read without its build, and `>=0.0.0` as no condition. -/
theorem read_text_reread {c : Comparator} (hc : c.WellFormed) :
    read c.reread.text = .ok c.reread := by
  rw [text_reread, reread]
  split
  · rfl
  · exact read_text hc

theorem isNullSet_reread (c : Comparator) : c.reread.isNullSet = c.isNullSet := by
  rw [reread]
  split
  · next hzero =>
    obtain ⟨build, rfl⟩ := isAtLeastZero_iff.mp hzero
    rfl
  · exact isNullSet_withoutBuild c

/-- Reading again keeps different comparators apart, since only one of them can be
dropped. -/
theorem text_eq_of_text_reread_eq {c d : Comparator} (hc : c.WellFormed) (hd : d.WellFormed)
    (hanyC : c ≠ any) (hanyD : d ≠ any) (heq : c.reread.text = d.reread.text) :
    c.text = d.text := by
  have hneC : c.text ≠ [] := fun hnil => hanyC (text_eq_nil_iff.mp hnil)
  have hneD : d.text ≠ [] := fun hnil => hanyD (text_eq_nil_iff.mp hnil)
  rw [text_reread, text_reread] at heq
  by_cases hzeroC : c.isAtLeastZero = true
  · by_cases hzeroD : d.isAtLeastZero = true
    · rw [(isAtLeastZero_iff_text hc).mp hzeroC, (isAtLeastZero_iff_text hd).mp hzeroD]
    · rw [if_pos hzeroC, if_neg hzeroD] at heq
      exact absurd heq.symm hneD
  · by_cases hzeroD : d.isAtLeastZero = true
    · rw [if_neg hzeroC, if_pos hzeroD] at heq
      exact absurd heq hneC
    · rwa [if_neg hzeroC, if_neg hzeroD] at heq

end Comparator

namespace Range

/-! ### Reading one alternative again -/

/-- Texts of comparators that differ are read without repetition. -/
theorem readTokens_map_text {known comparators : List Comparator}
    (hread : ∀ c ∈ comparators, Comparator.read c.text = .ok c)
    (hnull : ∀ c ∈ comparators, c.isNullSet = false)
    (hdistinct : ((known ++ comparators).map Comparator.text).Nodup) :
    readTokens known (comparators.map Comparator.text) = .ok (known ++ comparators) := by
  induction comparators generalizing known with
  | nil => rw [List.append_nil]; rfl
  | cons c rest ih =>
    have hnew : hasText known c = false := by
      rw [hasText_eq_false_iff]
      rw [List.map_append, List.nodup_append] at hdistinct
      intro hmem
      exact hdistinct.2.2 _ hmem c.text (by simp) rfl
    rw [List.map_cons, readTokens_cons (hread c (by simp)), hnull c (by simp), hnew]
    have hassoc : known ++ c :: rest = (known ++ [c]) ++ rest := by simp
    rw [hassoc] at hdistinct ⊢
    exact ih (fun d hd => hread d (by simp [hd])) (fun d hd => hnull d (by simp [hd])) hdistinct

section Alternative

variable {comparators : List Comparator} (hsimplified : Simplified comparators)

include hsimplified

theorem Simplified.bounds (hany : comparators ≠ [.any]) :
    ∀ c ∈ comparators, c.WellFormed ∧ c ≠ .any := by
  intro c hc
  refine ⟨hsimplified.wellFormed c hc, ?_⟩
  rintro rfl
  exact hany (hsimplified.any_alone hc)

theorem Simplified.splitBlanks_text :
    splitBlanks (alternativeText comparators) = comparators.map Comparator.text := by
  by_cases hany : comparators = [.any]
  · rw [hany]
    rfl
  · exact splitBlanks_alternativeText hsimplified.nonempty (hsimplified.bounds hany)

theorem Simplified.ofAlternative_text :
    Normal.ofAlternative (alternativeText comparators) = .ok (alternativeText comparators) := by
  by_cases hany : comparators = [.any]
  · rw [hany]
    exact ofAlternative_nil
  · exact ofAlternative_alternativeText hsimplified.nonempty (hsimplified.bounds hany)

theorem Simplified.tokens_text :
    Normal.tokens (alternativeText comparators) =
      (comparators.map Comparator.reread).map Comparator.text := by
  rw [Normal.tokens, hsimplified.splitBlanks_text, List.map_map, List.map_map]
  apply List.map_congr_left
  intro c hc
  exact Comparator.dropAtLeastZero_text (hsimplified.wellFormed c hc)

theorem Simplified.distinct_reread :
    ((comparators.map Comparator.reread).map Comparator.text).Nodup := by
  by_cases hany : comparators = [.any]
  · rw [hany]
    simp
  · have hbounds := hsimplified.bounds hany
    have hdistinct := hsimplified.distinct
    rw [List.Nodup, List.pairwise_map] at hdistinct
    rw [List.map_map, List.Nodup, List.pairwise_map]
    -- Only the bound `>=0.0.0` loses its text, and no other text is empty.
    apply hdistinct.imp_of_mem
    intro c d hc hd hdiffer heq
    apply hdiffer
    exact Comparator.text_eq_of_text_reread_eq (hbounds c hc).1 (hbounds d hd).1 (hbounds c hc).2
      (hbounds d hd).2 heq

/-- The tokens of a canonical alternative are read as its comparators again. -/
theorem Simplified.readTokens_text :
    readTokens [] (Normal.tokens (alternativeText comparators)) =
      .ok (comparators.map Comparator.reread) := by
  have hread : ∀ c ∈ comparators.map Comparator.reread, Comparator.read c.text = .ok c := by
    intro d hd
    obtain ⟨c, hc, rfl⟩ := List.mem_map.mp hd
    exact Comparator.read_text_reread (hsimplified.wellFormed c hc)
  rw [hsimplified.tokens_text]
  by_cases hnull : ∃ c ∈ comparators, c.isNullSet = true
  · obtain ⟨c, hc, htrue⟩ := hnull
    rw [hsimplified.null_alone c hc htrue] at hread ⊢
    have hagain := hread c.reread (by simp)
    rw [← Comparator.isNullSet_reread] at htrue
    rw [List.map_singleton, List.map_singleton, readTokens_cons hagain, if_pos htrue]
  · apply readTokens_map_text hread
    · intro d hd
      obtain ⟨c, hc, rfl⟩ := List.mem_map.mp hd
      rw [Comparator.isNullSet_reread]
      exact Bool.eq_false_iff.mpr fun htrue => hnull ⟨c, hc, htrue⟩
    · exact hsimplified.distinct_reread

/-- The canonical text of an alternative reads as its comparators, each as it is
read again. -/
theorem Simplified.readAlternative_text :
    readAlternative (alternativeText comparators) =
      .ok (dropAny (comparators.map Comparator.reread)) := by
  rw [readAlternative, hsimplified.ofAlternative_text]
  change readNormal (alternativeText comparators) = _
  rw [readNormal, hsimplified.readTokens_text]
  rfl

end Alternative

/-- The canonical text of a comparator is an alternative of its own. -/
theorem readAlternative_text {c : Comparator} (hc : c.WellFormed) :
    readAlternative c.text = .ok [c.reread] := by
  have hread := (simplified_singleton hc).readAlternative_text
  rw [alternativeText, List.map_singleton, joinWith_singleton] at hread
  exact hread

/-- An alternative without a blank is read as one token. -/
theorem readAlternative_of_no_blank {text : Text} (htext : ∀ c ∈ text, isBlank c = false) :
    readAlternative text = Normal.expandToken text >>= readNormal := by
  rw [readAlternative, ofAlternative_of_no_blank htext]

/-! ### Cutting the canonical text of a range -/

/-- What the canonical text of a range is read as. -/
def reread (range : Range) : Range where
  source := range.text
  alternatives := simplify (range.alternatives.map fun comparators =>
    dropAny (comparators.map Comparator.reread))

section Bars

variable {range : Range} (hreduced : Reduced range.alternatives)

include hreduced

/-- Between bars stand texts without bars and with no blank at an end. -/
theorem Reduced.piece (hany : [.any] ∉ range.alternatives) :
    ∀ piece ∈ range.alternatives.map alternativeText, IsTrimmed piece ∧ '|' ∉ piece := by
  intro piece hpiece
  obtain ⟨comparators, hmem, rfl⟩ := List.mem_map.mp hpiece
  have hsimplified := hreduced.simplified comparators hmem
  have hbounds := hsimplified.bounds fun heq => hany (by rwa [← heq])
  constructor
  · apply isTrimmed_joinWith (by simpa using hsimplified.nonempty)
    exact fun token htoken => (isToken_of_mem_texts hbounds token htoken).isTrimmed
  · exact not_mem_alternativeText hbounds (by decide) (by decide)

/-- The canonical text of a range is cut into the canonical texts of its
alternatives. -/
theorem Reduced.alternativeTexts_text :
    alternativeTexts range.text = range.alternatives.map alternativeText := by
  by_cases hany : [.any] ∈ range.alternatives
  · rw [text, hreduced.any_alone hany]
    rfl
  · have hpieces := hreduced.piece hany
    have hne : range.alternatives.map alternativeText ≠ [] := by simpa using hreduced.nonempty
    have htrim : trim (joinWith ['|', '|'] (range.alternatives.map alternativeText)) =
        joinWith ['|', '|'] (range.alternatives.map alternativeText) :=
      (isTrimmed_joinWith hne fun piece hpiece => (hpieces piece hpiece).1).trim_eq
    have hsplit : splitBars (joinWith ['|', '|'] (range.alternatives.map alternativeText)) =
        range.alternatives.map alternativeText :=
      splitBars_joinWith hne fun piece hpiece => (hpieces piece hpiece).2
    have hself : ∀ piece ∈ range.alternatives.map alternativeText, trim piece = piece :=
      fun piece hpiece => (hpieces piece hpiece).1.trim_eq
    rw [alternativeTexts, text, htrim, hsplit]
    calc (range.alternatives.map alternativeText).map trim
        = (range.alternatives.map alternativeText).map id := List.map_congr_left hself
      _ = range.alternatives.map alternativeText := List.map_id _

/-- The canonical text of a range is read again. -/
theorem Reduced.read_text : read range.text = .ok range.reread := by
  apply read_of_mapM
  rw [hreduced.alternativeTexts_text]
  exact mapM_map_eq_ok fun comparators hmem =>
    (hreduced.simplified comparators hmem).readAlternative_text

end Bars

/-! ### Ranges without the bound that is dropped -/

def LacksAtLeastZero (range : Range) : Prop :=
  ∀ comparators ∈ range.alternatives, ∀ c ∈ comparators, c.isAtLeastZero = false

instance : DecidablePred LacksAtLeastZero := fun range =>
  inferInstanceAs (Decidable
    (∀ comparators ∈ range.alternatives, ∀ c ∈ comparators, c.isAtLeastZero = false))

theorem alternativeText_withoutBuild (comparators : List Comparator) :
    alternativeText (comparators.map Comparator.withoutBuild) = alternativeText comparators := by
  simp [alternativeText, Function.comp_def]

theorem any_mem_of_withoutBuild {comparators : List Comparator}
    (hany : .any ∈ comparators.map Comparator.withoutBuild) : .any ∈ comparators := by
  obtain ⟨c, hc, heq⟩ := List.mem_map.mp hany
  cases c with
  | any => exact hc
  | bound operator version => cases heq

theorem isNullAlternative_withoutBuild (comparators : List Comparator) :
    isNullAlternative (comparators.map Comparator.withoutBuild) =
      isNullAlternative comparators := by
  cases comparators with
  | nil => rfl
  | cons c rest => exact Comparator.isNullSet_withoutBuild c

theorem Simplified.withoutBuild {comparators : List Comparator}
    (hsimplified : Simplified comparators) :
    Simplified (comparators.map Comparator.withoutBuild) where
  nonempty := by simpa using hsimplified.nonempty
  wellFormed d hd := by
    obtain ⟨c, hc, rfl⟩ := List.mem_map.mp hd
    exact (hsimplified.wellFormed c hc).withoutBuild
  distinct := by simpa [Function.comp_def] using hsimplified.distinct
  any_alone hany := by
    rw [hsimplified.any_alone (any_mem_of_withoutBuild hany)]
    rfl
  null_alone d hd hnull := by
    obtain ⟨c, hc, rfl⟩ := List.mem_map.mp hd
    rw [Comparator.isNullSet_withoutBuild] at hnull
    rw [hsimplified.null_alone c hc hnull]
    rfl

theorem Reduced.withoutBuild {alternatives : List (List Comparator)}
    (hreduced : Reduced alternatives) :
    Reduced (alternatives.map (·.map Comparator.withoutBuild)) where
  nonempty := by simpa using hreduced.nonempty
  simplified those hthose := by
    obtain ⟨these, hthese, rfl⟩ := List.mem_map.mp hthose
    exact (hreduced.simplified these hthese).withoutBuild
  any_alone hany := by
    obtain ⟨these, hthese, heq⟩ := List.mem_map.mp hany
    have hmem : .any ∈ these := any_mem_of_withoutBuild (by simp [heq])
    rw [(hreduced.simplified these hthese).any_alone hmem] at hthese
    rw [hreduced.any_alone hthese]
    rfl
  null_alone those hthose hnull := by
    obtain ⟨these, hthese, rfl⟩ := List.mem_map.mp hthose
    rw [isNullAlternative_withoutBuild] at hnull
    rw [hreduced.null_alone these hthese hnull]
    rfl

theorem Simplified.dropAny_reread {comparators : List Comparator}
    (hsimplified : Simplified comparators) (hlacks : ∀ c ∈ comparators, c.isAtLeastZero = false) :
    dropAny (comparators.map Comparator.reread) = comparators.map Comparator.withoutBuild := by
  have hreread : comparators.map Comparator.reread =
      comparators.map Comparator.withoutBuild := by
    apply List.map_congr_left
    intro c hc
    rw [Comparator.reread, if_neg (by simp [hlacks c hc])]
  rw [hreread]
  exact hsimplified.withoutBuild.dropAny_eq_self

/-- Without the bound that is dropped, alternatives stay as they are but for their
builds. -/
theorem Reduced.alternatives_reread {range : Range} (hreduced : Reduced range.alternatives)
    (hlacks : LacksAtLeastZero range) :
    range.reread.alternatives = range.alternatives.map (·.map Comparator.withoutBuild) := by
  have hdrop : (range.alternatives.map fun comparators =>
        dropAny (comparators.map Comparator.reread)) =
      range.alternatives.map (·.map Comparator.withoutBuild) := by
    apply List.map_congr_left
    intro comparators hmem
    exact (hreduced.simplified comparators hmem).dropAny_reread (hlacks comparators hmem)
  rw [reread, hdrop]
  exact hreduced.withoutBuild.simplify_eq_self

theorem text_eq_of_alternatives_eq {a b : Range}
    (heq : a.alternatives = b.alternatives.map (·.map Comparator.withoutBuild)) :
    a.text = b.text := by
  simp [text, heq, Function.comp_def, alternativeText_withoutBuild]

/-- Two reduced ranges with one canonical text have alternatives with the same
texts. -/
theorem map_text_eq_of_text_eq {a b : Range} (ha : Reduced a.alternatives)
    (hb : Reduced b.alternatives) (htext : a.text = b.text) :
    a.alternatives.map (·.map Comparator.text) = b.alternatives.map (·.map Comparator.text) := by
  have hcut : ∀ {range : Range}, Reduced range.alternatives →
      (alternativeTexts range.text).map splitBlanks =
        range.alternatives.map (·.map Comparator.text) := by
    intro range hreduced
    rw [hreduced.alternativeTexts_text, List.map_map]
    apply List.map_congr_left
    intro comparators hmem
    exact (hreduced.simplified comparators hmem).splitBlanks_text
  rw [← hcut ha, ← hcut hb, htext]

/-- What is read again has no bound `>=0.0.0`. -/
theorem lacksAtLeastZero_reread (range : Range) : LacksAtLeastZero range.reread := by
  intro those hthose c hc
  obtain ⟨these, _, rfl⟩ := List.mem_map.mp (mem_of_mem_simplify hthose)
  obtain ⟨d, _, rfl⟩ := List.mem_map.mp (mem_of_mem_dropAny hc)
  exact Comparator.isAtLeastZero_reread d

/-- The canonical text tells whether a range has a comparator `>=0.0.0`. -/
theorem lacksAtLeastZero_of_text_eq {a b : Range} (ha : Reduced a.alternatives)
    (hb : Reduced b.alternatives) (htext : a.text = b.text) (hlacks : LacksAtLeastZero a) :
    LacksAtLeastZero b := by
  intro those hthose d hd
  -- The text of a bound `>=0.0.0` would stand in both canonical texts.
  have htexts := map_text_eq_of_text_eq ha hb htext
  have hmem : those.map Comparator.text ∈ a.alternatives.map (·.map Comparator.text) := by
    rw [htexts]
    exact List.mem_map_of_mem hthose
  obtain ⟨these, hthese, hsame⟩ := List.mem_map.mp hmem
  have hd' : d.text ∈ these.map Comparator.text := by
    rw [hsame]
    exact List.mem_map_of_mem hd
  obtain ⟨c, hc, heq⟩ := List.mem_map.mp hd'
  apply Bool.eq_false_iff.mpr
  intro hzero
  have hwellC := (ha.simplified these hthese).wellFormed c hc
  have hwellD := (hb.simplified those hthose).wellFormed d hd
  rw [Comparator.isAtLeastZero_iff_text hwellD, ← heq,
    ← Comparator.isAtLeastZero_iff_text hwellC, hlacks these hthese c hc] at hzero
  cases hzero

/-- A range keeps its canonical text exactly if that text has no bound to drop. -/
theorem isSame_reread_iff {range : Range} (hreduced : Reduced range.alternatives) :
    range.reread.isSame range = true ↔ LacksAtLeastZero range := by
  rw [isSame, beq_iff_eq]
  constructor
  · intro htext
    have hagain := reduced_of_read hreduced.read_text
    exact lacksAtLeastZero_of_text_eq hagain hreduced htext (lacksAtLeastZero_reread range)
  · intro hlacks
    exact text_eq_of_alternatives_eq (hreduced.alternatives_reread hlacks)

/-- The alternatives come back exactly if no comparator is `>=0.0.0`. -/
theorem alternatives_reread_iff {range : Range} (hreduced : Reduced range.alternatives) :
    range.reread.alternatives = range.alternatives.map (·.map Comparator.withoutBuild) ↔
      LacksAtLeastZero range := by
  constructor
  · intro heq
    apply (isSame_reread_iff hreduced).mp
    rw [isSame, beq_iff_eq]
    exact text_eq_of_alternatives_eq heq
  · exact hreduced.alternatives_reread

/-- A range that was read always reads again, from its canonical text and from a
document.  It is the same range, with the same alternatives but for the builds,
exactly if none of its comparators is `>=0.0.0`. -/
theorem canonical_text_stable_iff {source : Text} {range : Range}
    (hread : read source = .ok range) :
    ∃ again, read range.text = .ok again ∧
      Document.readRange (Document.ofRange range) = .ok again ∧
        (again.isSame range = true ↔ LacksAtLeastZero range) ∧
          (again.alternatives = range.alternatives.map (·.map Comparator.withoutBuild) ↔
            LacksAtLeastZero range) := by
  have hreduced := reduced_of_read hread
  have hagain := hreduced.read_text
  refine ⟨range.reread, hagain, ?_, isSame_reread_iff hreduced,
    alternatives_reread_iff hreduced⟩
  rw [Document.ofRange, Document.readRange, hagain]
  rfl

theorem canonical_text_stable_iff_caret :
    ∃ range again, read "^1.2.3 || v2.0.0+b || <0.0.0-0".toList = .ok range ∧
      read range.text = .ok again ∧ again.isSame range = true := by
  have hread : read "^1.2.3 || v2.0.0+b || <0.0.0-0".toList =
      .ok ⟨"^1.2.3 || v2.0.0+b || <0.0.0-0".toList,
        [[.bound .greaterEqual ⟨1, 2, 3, [], []⟩, .bound .less ⟨2, 0, 0, [.numeric 0], []⟩],
          [.bound .equal ⟨2, 0, 0, [], [['b']]⟩]]⟩ :=
    read_of_toOption (by decide +kernel)
  obtain ⟨again, hagain, _, hsame, _⟩ := canonical_text_stable_iff hread
  exact ⟨_, again, hread, hagain, hsame.mpr (by decide)⟩

/-- With a `v` in it the bound `>=0.0.0` is kept, but its canonical text has none. -/
theorem lead_keeps_bound_once :
    ∃ range again, read ">=v0.0.0".toList = .ok range ∧ range.text = ">=0.0.0".toList ∧
      read range.text = .ok again ∧ again.text = [] ∧ again.isSame range = false :=
  ⟨⟨">=v0.0.0".toList, [[.bound .greaterEqual ⟨0, 0, 0, [], []⟩]]⟩,
    ⟨">=0.0.0".toList, [[.any]]⟩, read_of_toOption (by decide +kernel), by decide,
    read_of_toOption (by decide +kernel), by decide, by decide⟩

end Range

end SemanticVersions
