import SemanticVersions.Proofs.Range.Partial
import SemanticVersions.Proofs.Range.Spacing

/-!
# Where a written version ends

No part of a version has a blank in it, so what stands behind a blank does not count for
where a version ends.  The search for signs and versions goes on where a version ended, even
inside a token: a prerelease such as `0v` ends in front of its `v`, and a `v` may open the next
version.
-/

namespace SemanticVersions

def IsBreak (text : Text) : Prop :=
  ∀ c ∈ text.head?, isBlank c = true

theorem isBreak_nil : IsBreak [] := by simp [IsBreak]

theorem isBreak_cons {c : Char} (hblank : isBlank c = true) (rest : Text) :
    IsBreak (c :: rest) := by
  simpa [IsBreak] using hblank

theorem IsBreak.cases {text : Text} (htext : IsBreak text) :
    text = [] ∨ ∃ c rest, text = c :: rest ∧ isBlank c = true := by
  cases text with
  | nil => exact .inl rfl
  | cons c rest => exact .inr ⟨c, rest, rfl, htext c rfl⟩

theorem IsBreak.not_mem_head?_append {more : Text} (hmore : IsBreak more) {mark : Char}
    (hmark : isBlank mark = false) {text : Text} (hhead : mark ∉ text.head?) :
    mark ∉ (text ++ more).head? := by
  cases text with
  | nil =>
    intro hmem
    rw [hmore mark hmem] at hmark
    cases hmark
  | cons c rest => exact hhead

/-- A class without blanks takes nothing of a break. -/
theorem IsBreak.dropWhile_append {more : Text} (hmore : IsBreak more) {inClass : Char → Bool}
    (hclass : ∀ c, isBlank c = true → inClass c = false) (text : Text) :
    (text ++ more).dropWhile inClass = text.dropWhile inClass ++ more := by
  induction text with
  | nil =>
    rcases hmore.cases with rfl | ⟨c, rest, rfl, hblank⟩
    · rfl
    · simp [hclass c hblank]
  | cons c rest ih =>
    cases hc : inClass c <;> simp [hc, ih]

theorem not_isIdentifierChar_of_isBlank {c : Char} (hblank : isBlank c = true) :
    isIdentifierChar c = false := by
  cases hc : isIdentifierChar c with
  | false => rfl
  | true =>
    rw [not_isBlank_of_isIdentifierChar hc] at hblank
    cases hblank

theorem not_isDigit_of_isBlank {c : Char} (hblank : isBlank c = true) : c.isDigit = false := by
  cases hc : c.isDigit with
  | false => rfl
  | true =>
    have hidentifier := not_isIdentifierChar_of_isBlank hblank
    rw [isIdentifierChar_of_isDigit hc] at hidentifier
    cases hidentifier

namespace Operand

theorem start?_of_isBlank (suffix : Suffix) {c : Char} (hblank : isBlank c = true) :
    suffix.start? c = none := by
  have hdigit := not_isDigit_of_isBlank hblank
  have hidentifier := not_isIdentifierChar_of_isBlank hblank
  have hzero : c ≠ '0' := ne_of_class hblank (by decide)
  cases suffix <;> simp [Suffix.start?, hdigit, hidentifier, hzero]

theorem holds_of_isBlank (run : Run) {c : Char} (hblank : isBlank c = true) :
    run.holds c = false := by
  cases run with
  | zero => rfl
  | digits => exact not_isDigit_of_isBlank hblank
  | word => exact not_isIdentifierChar_of_isBlank hblank

theorem ne_point_of_cases {c : Char} {rest : Text} (hlast : c = '.' → rest = [] → False)
    (hpoint : ∀ d tail, c = '.' → rest = d :: tail → False) : c ≠ '.' := by
  rintro rfl
  cases rest with
  | nil => exact hlast rfl rfl
  | cons d tail => exact hpoint d tail rfl rfl

theorem afterRun_of_ne_point (suffix : Suffix) (run : Run) {c : Char} (hpoint : c ≠ '.')
    (rest : Text) : afterRun suffix run (c :: rest) =
      if run.holds c then afterRun suffix run rest else c :: rest := by
  rw [afterRun]
  · rintro rfl _
    exact hpoint rfl
  · rintro _ _ rfl _
    exact hpoint rfl

theorem afterBuild_eq_self {text : Text} (htext : '+' ∉ text.head?) : afterBuild text = text := by
  unfold afterBuild
  split
  · exact absurd rfl htext
  · rfl

theorem afterPrerelease_eq_self {text : Text} (htext : '-' ∉ text.head?) :
    afterPrerelease text = text := by
  unfold afterPrerelease
  split
  · exact absurd rfl htext
  · rfl

theorem afterLoosePrerelease_of_head {text : Text} (htext : '-' ∉ text.head?) :
    afterLoosePrerelease text = (afterDotted? .loosePrerelease text).getD text := by
  unfold afterLoosePrerelease
  split
  · exact absurd rfl htext
  · rfl

theorem afterPoint?_eq_none {text : Text} (htext : '.' ∉ text.head?) :
    afterPoint? text = none := by
  unfold afterPoint?
  split
  · exact absurd rfl htext
  · rfl

theorem getD_map_append (after : Option Text) (text more : Text) :
    (after.map (· ++ more)).getD (text ++ more) = after.getD text ++ more := by
  cases after <;> rfl

section Break

variable {more : Text} (hmore : IsBreak more)

include hmore

theorem afterRun_break (suffix : Suffix) (run : Run) : afterRun suffix run more = more := by
  rcases hmore.cases with rfl | ⟨c, rest, rfl, hblank⟩
  · rfl
  · rw [afterRun_of_ne_point suffix run (ne_of_class hblank (by decide)),
      holds_of_isBlank run hblank]
    rfl

/-- A scan ends in a text as it does with a break behind the text. -/
theorem afterRun_append (suffix : Suffix) (run : Run) (text : Text) :
    afterRun suffix run (text ++ more) = afterRun suffix run text ++ more := by
  fun_induction afterRun suffix run text with
  | case1 run => exact afterRun_break hmore suffix run
  | case2 run =>
    rcases hmore.cases with rfl | ⟨c, rest, rfl, hblank⟩
    · rfl
    · simp [afterRun, start?_of_isBlank suffix hblank]
  | case3 run c rest next hnext ih => simp [afterRun, hnext, ih]
  | case4 run c rest hnone => simp [afterRun, hnone]
  | case5 run c rest hlast hpoint hholds ih =>
    have hc : c ≠ '.' := ne_point_of_cases hlast hpoint
    rw [List.cons_append, afterRun_of_ne_point suffix run hc, if_pos hholds, ih]
  | case6 run c rest hlast hpoint hholds =>
    have hc : c ≠ '.' := ne_point_of_cases hlast hpoint
    rw [List.cons_append, afterRun_of_ne_point suffix run hc, if_neg hholds]

theorem afterDotted?_append (suffix : Suffix) (text : Text) :
    afterDotted? suffix (text ++ more) = (afterDotted? suffix text).map (· ++ more) := by
  cases text with
  | nil =>
    rcases hmore.cases with rfl | ⟨c, rest, rfl, hblank⟩
    · rfl
    · simp [afterDotted?, start?_of_isBlank suffix hblank]
  | cons c rest =>
    simp [afterDotted?, Option.map_map, Function.comp_def, afterRun_append hmore]

theorem afterBuild_append (text : Text) : afterBuild (text ++ more) = afterBuild text ++ more := by
  by_cases hhead : '+' ∈ text.head?
  · obtain ⟨rest, rfl⟩ : ∃ rest, text = '+' :: rest := List.head?_eq_some_iff.mp hhead
    simp only [List.cons_append, afterBuild, afterDotted?_append hmore]
    exact getD_map_append _ ('+' :: rest) more
  · rw [afterBuild_eq_self hhead,
      afterBuild_eq_self (hmore.not_mem_head?_append (by decide) hhead)]

theorem afterPrerelease_append (text : Text) :
    afterPrerelease (text ++ more) = afterPrerelease text ++ more := by
  by_cases hhead : '-' ∈ text.head?
  · obtain ⟨rest, rfl⟩ : ∃ rest, text = '-' :: rest := List.head?_eq_some_iff.mp hhead
    simp only [List.cons_append, afterPrerelease, afterDotted?_append hmore]
    exact getD_map_append _ ('-' :: rest) more
  · rw [afterPrerelease_eq_self hhead,
      afterPrerelease_eq_self (hmore.not_mem_head?_append (by decide) hhead)]

theorem afterLoosePrerelease_append (text : Text) :
    afterLoosePrerelease (text ++ more) = afterLoosePrerelease text ++ more := by
  by_cases hhead : '-' ∈ text.head?
  · obtain ⟨rest, rfl⟩ : ∃ rest, text = '-' :: rest := List.head?_eq_some_iff.mp hhead
    simp only [List.cons_append, afterLoosePrerelease, afterDotted?_append hmore,
      afterRun_append hmore]
    exact getD_map_append _ _ more
  · have hboth := hmore.not_mem_head?_append (by decide) hhead
    rw [afterLoosePrerelease_of_head hhead, afterLoosePrerelease_of_head hboth,
      afterDotted?_append hmore]
    exact getD_map_append _ _ more

theorem afterPoint?_append (text : Text) :
    afterPoint? (text ++ more) = (afterPoint? text).map (· ++ more) := by
  by_cases hhead : '.' ∈ text.head?
  · obtain ⟨rest, rfl⟩ : ∃ rest, text = '.' :: rest := List.head?_eq_some_iff.mp hhead
    rfl
  · have hboth := hmore.not_mem_head?_append (by decide) hhead
    rw [afterPoint?_eq_none hhead, afterPoint?_eq_none hboth]
    rfl

theorem dropWhile_isDigit_append (text : Text) :
    (text ++ more).dropWhile Char.isDigit = text.dropWhile Char.isDigit ++ more := by
  apply hmore.dropWhile_append
  exact fun c hblank => not_isDigit_of_isBlank hblank

theorem afterNumeral?_append (text : Text) :
    afterNumeral? (text ++ more) = (afterNumeral? text).map (· ++ more) := by
  cases text with
  | nil =>
    rcases hmore.cases with rfl | ⟨c, rest, rfl, hblank⟩
    · rfl
    · simp [afterNumeral?, not_isDigit_of_isBlank hblank]
  | cons c rest =>
    simp only [List.cons_append, afterNumeral?, dropWhile_isDigit_append hmore]
    split <;> rfl

theorem afterComponent?_append (text : Text) :
    afterComponent? (text ++ more) = (afterComponent? text).map (· ++ more) := by
  cases text with
  | nil =>
    rcases hmore.cases with rfl | ⟨c, rest, rfl, hblank⟩
    · rfl
    · have hzero : c ≠ '0' := ne_of_class hblank (by decide)
      have hx : c ≠ 'x' := ne_of_class hblank (by decide)
      have hX : c ≠ 'X' := ne_of_class hblank (by decide)
      have hstar : c ≠ '*' := ne_of_class hblank (by decide)
      simp [afterComponent?, not_isDigit_of_isBlank hblank, hzero, hx, hX, hstar]
  | cons c rest =>
    simp only [List.cons_append, afterComponent?, dropWhile_isDigit_append hmore]
    split
    · rfl
    · split <;> rfl

theorem pointed_append {after? : Text → Option Text}
    (hafter : ∀ text, after? (text ++ more) = (after? text).map (· ++ more)) (text : Text) :
    (afterPoint? (text ++ more) >>= after?) = (afterPoint? text >>= after?).map (· ++ more) := by
  rw [afterPoint?_append hmore]
  cases afterPoint? text with
  | none => rfl
  | some rest => exact hafter rest

theorem afterLoose?_append (text : Text) :
    afterLoose? (text ++ more) = (afterLoose? text).map (· ++ more) := by
  have hpointed := pointed_append hmore (afterNumeral?_append hmore)
  rw [afterLoose?, afterNumeral?_append hmore, afterLoose?]
  cases afterNumeral? text with
  | none => rfl
  | some first =>
    simp only [Option.map_some, Option.bind_eq_bind, Option.bind_some] at hpointed ⊢
    rw [hpointed]
    cases (afterPoint? first).bind afterNumeral? with
    | none => rfl
    | some second =>
      simp only [Option.map_some, Option.bind_some, hpointed]
      cases (afterPoint? second).bind afterNumeral? with
      | none => rfl
      | some third =>
        simp [afterLoosePrerelease_append hmore, afterBuild_append hmore]

theorem afterPartial?_append (text : Text) :
    afterPartial? (text ++ more) = (afterPartial? text).map (· ++ more) := by
  have hpointed := pointed_append hmore (afterComponent?_append hmore)
  rw [afterPartial?, afterComponent?_append hmore, afterPartial?]
  cases afterComponent? text with
  | none => rfl
  | some first =>
    simp only [Option.map_some, Option.bind_eq_bind, Option.bind_some] at hpointed ⊢
    rw [hpointed]
    cases (afterPoint? first).bind afterComponent? with
    | none => rfl
    | some second =>
      simp only [Option.map_some, hpointed]
      cases (afterPoint? second).bind afterComponent? with
      | none => rfl
      | some third =>
        simp [afterPrerelease_append hmore, afterBuild_append hmore]

/-- A version ends where it would end without what stands behind a blank. -/
theorem afterVersion?_append {text : Text} (hbody : text.dropWhile Partial.isLead ≠ []) :
    afterVersion? (text ++ more) = (afterVersion? text).map (· ++ more) := by
  have hlead : (text ++ more).dropWhile Partial.isLead =
      text.dropWhile Partial.isLead ++ more := by
    rw [List.dropWhile_append, if_neg (by simpa using hbody)]
  rw [afterVersion?, afterVersion?, hlead, afterLoose?_append hmore, afterPartial?_append hmore]
  cases afterLoose? (text.dropWhile Partial.isLead) <;> rfl

end Break

theorem afterVersion?_append_lead {lead : Text} (hlead : ∀ c ∈ lead, Partial.isLead c = true)
    (text : Text) : afterVersion? (lead ++ text) = afterVersion? text := by
  rw [afterVersion?, afterVersion?, List.dropWhile_append_of_pos hlead]

theorem afterVersion?_of_lead {lead : Text} (hlead : ∀ c ∈ lead, Partial.isLead c = true) :
    afterVersion? lead = none := by
  rw [afterVersion?, List.dropWhile_eq_nil_iff.mpr hlead]
  rfl

/-- A version ends within what stands behind its lead. -/
theorem afterVersion?_suffix {text rest : Text} (hafter : afterVersion? text = some rest) :
    rest <:+ text.dropWhile Partial.isLead := by
  rcases Option.or_eq_some_iff.mp hafter with hloose | ⟨_, hpartial⟩
  · exact (afterLoose?_isBehind hloose).1
  · exact (afterPartial?_isBehind hpartial).1

theorem exists_afterComponent? {text : Text} {component : Component}
    (hread : Component.read? text = some component) (more : Text) :
    ∃ rest, afterComponent? (text ++ more) = some rest := by
  rcases Component.read?_eq_some hread with ⟨_, rfl | rfl | rfl⟩ | hplain
  · exact ⟨more, rfl⟩
  · exact ⟨more, rfl⟩
  · exact ⟨more, rfl⟩
  · obtain ⟨hne, hdigits⟩ := isNumeral_iff.mp (isNumeral_of_isPlainNumeral hplain)
    obtain ⟨c, tail, rfl⟩ := List.exists_cons_of_ne_nil hne
    simp only [List.cons_append, afterComponent?, hdigits c (by simp)]
    split <;> exact ⟨_, rfl⟩

/-- A full or partial version is found by the search for versions. -/
theorem exists_afterVersion? {text : Text} {version : Partial}
    (hread : Partial.read? text = some version) : ∃ rest, afterVersion? text = some rest := by
  obtain ⟨release, suffix, build, hparts⟩ := Partial.exists_read?_iff.mp ⟨version, hread⟩
  obtain ⟨first, others, rfl⟩ :=
    List.exists_cons_of_ne_nil (List.ne_nil_of_length_pos hparts.release_pos)
  obtain ⟨component, hcomponent⟩ := hparts.component first (by simp)
  have hpartial : ∃ rest, afterPartial? (text.dropWhile Partial.isLead) = some rest := by
    rw [hparts.text_eq, joinWith_cons_eq_append, List.append_assoc, List.append_assoc]
    obtain ⟨rest, hrest⟩ := exists_afterComponent? hcomponent
      (others.flatMap ('.' :: ·) ++ (Version.markedText '-' suffix ++ Version.markedText '+' build))
    rw [afterPartial?, hrest, Option.bind_eq_bind, Option.bind_some]
    split
    · exact ⟨_, rfl⟩
    · split <;> exact ⟨_, rfl⟩
  obtain ⟨rest, hrest⟩ := hpartial
  rw [afterVersion?, hrest]
  cases afterLoose? (text.dropWhile Partial.isLead) with
  | none => exact ⟨rest, rfl⟩
  | some behind => exact ⟨behind, rfl⟩

end Operand
namespace Spacing

open Operand

/-- What a text without blanks leaves to a version behind it: the `v` at its end, unless
the search for versions takes them as a part of one. -/
def openLead (text : Text) : Text :=
  match text with
  | [] => []
  | c :: tail =>
    match _hafter : afterVersion? (c :: tail) with
    | some rest => openLead rest
    | none => if (c :: tail).all Partial.isLead then c :: tail else openLead tail
termination_by text.length
decreasing_by
  · exact (afterVersion?_isBehind _hafter).2
  · exact Nat.lt_succ_self _

theorem isLead_of_mem_openLead {text : Text} {c : Char} (hc : c ∈ openLead text) :
    Partial.isLead c = true := by
  fun_induction openLead text with
  | case1 => cases hc
  | case2 d tail rest hafter ih => exact ih hc
  | case3 d tail hnone hlead => exact List.all_eq_true.mp hlead c hc
  | case4 d tail hnone hlead ih => exact ih hc

theorem openLead_suffix (text : Text) : openLead text <:+ text := by
  fun_induction openLead text with
  | case1 => exact List.suffix_rfl
  | case2 d tail rest hafter ih => exact ih.trans (afterVersion?_isBehind hafter).1
  | case3 => exact List.suffix_rfl
  | case4 d tail hnone hlead ih => exact ih.trans (List.suffix_cons d tail)

/-- A version at the head of a text leaves open what the text behind it does. -/
theorem openLead_eq_of_afterVersion? {text rest : Text} (hafter : afterVersion? text = some rest) :
    openLead text = openLead rest := by
  cases text with
  | nil => cases (afterVersion?_isBehind hafter).2
  | cons c tail =>
    rw [openLead]
    split
    · next behind hbehind =>
      rw [hafter] at hbehind
      cases hbehind
      rfl
    · next hnone =>
      rw [hafter] at hnone
      cases hnone

/-! ### Steps of the search -/

/-- The search for signs goes on behind the version that it takes. -/
theorem closeSigns_of_operand? {text head version rest : Text}
    (hoperand : operand? text = some (head, version, rest)) :
    closeSigns text = head ++ version ++ closeSigns rest := by
  cases text with
  | nil => cases hoperand
  | cons c tail =>
    rw [closeSigns]
    split
    · next found =>
      rw [hoperand] at found
      cases found
      rfl
    · next hnone =>
      rw [hoperand] at hnone
      cases hnone

theorem closeSigns_of_none {c : Char} {tail : Text} (hnone : operand? (c :: tail) = none) :
    closeSigns (c :: tail) = c :: closeSigns tail := by
  rw [closeSigns]
  split
  · next hoperand =>
    rw [hnone] at hoperand
    cases hoperand
  · rfl

theorem before_append_append {text rest : Text} (hsuffix : rest <:+ text) (more : Text) :
    before (text ++ more) (rest ++ more) = before text rest := by
  obtain ⟨front, rfl⟩ := hsuffix
  simp [before]

theorem spanSign_of_head {c : Char} (hsign : Operator.isSignChar c = false) (tail : Text) :
    spanSign (c :: tail) = ([], c :: tail) := by
  obtain ⟨hless, hgreater, hequal⟩ := Operator.isSignChar_eq_false_iff.mp hsign
  simp [spanSign, hless, hgreater, hequal]

/-- Without a blank or a sign at its head, an operand is a version. -/
theorem operand?_of_head {c : Char} (hblank : isBlank c = false)
    (hsign : Operator.isSignChar c = false) (tail : Text) :
    operand? (c :: tail) =
      (afterVersion? (c :: tail)).map fun rest => ([], before (c :: tail) rest, rest) := by
  have hspan := spanSign_of_head hsign tail
  simp only [operand?, trimStart_cons_of_not_blank hblank, hspan, List.takeWhile_cons, hblank]
  cases afterVersion? (c :: tail) <;> rfl

theorem dropWhile_ne_nil_of_afterVersion? {text rest : Text}
    (hafter : afterVersion? text = some rest) : text.dropWhile Partial.isLead ≠ [] := by
  intro hnil
  rw [afterVersion?_of_lead (List.dropWhile_eq_nil_iff.mp hnil)] at hafter
  cases hafter

theorem before_append_left {text rest : Text} (hsuffix : rest <:+ text) (front : Text) :
    before (front ++ text) rest = front ++ before text rest := by
  rw [← List.append_left_inj rest, before_append (hsuffix.trans (List.suffix_append front text)),
    List.append_assoc, before_append hsuffix]

/-- A sign is followed by blanks, or it takes an equals sign of the version. -/
theorem exists_spanSign {sign gap version : Text} (hsign : Operator.IsSign sign)
    (hgap : ∀ c ∈ gap, isBlank c = true) (hblank : ∀ c ∈ version, isBlank c = false)
    (hangle : ∀ c ∈ version.head?, c ≠ '<' ∧ c ≠ '>')
    (hbody : version.dropWhile Partial.isLead ≠ []) (more : Text) :
    ∃ equals behind, version = equals ++ behind ∧ (∀ c ∈ equals, c = '=') ∧
      (spanSign (sign ++ (gap ++ (version ++ more)))).1 = sign ++ equals ∧
        trimStart (spanSign (sign ++ (gap ++ (version ++ more)))).2 = behind ++ more := by
  have hstart : ∀ behind : Text, behind ≠ [] → (∀ c ∈ behind, isBlank c = false) →
      trimStart (behind ++ more) = behind ++ more := by
    intro behind hne hsolid
    obtain ⟨c, tail, rfl⟩ := List.exists_cons_of_ne_nil hne
    exact trimStart_cons_of_not_blank (hsolid c (by simp)) (tail ++ more)
  have hne : version ≠ [] := by
    rintro rfl
    exact hbody rfl
  have hwhole : spanSign (sign ++ (gap ++ (version ++ more))) = (sign, gap ++ (version ++ more)) →
      ∃ equals behind, version = equals ++ behind ∧ (∀ c ∈ equals, c = '=') ∧
        (spanSign (sign ++ (gap ++ (version ++ more)))).1 = sign ++ equals ∧
          trimStart (spanSign (sign ++ (gap ++ (version ++ more)))).2 = behind ++ more := by
    intro hspan
    refine ⟨[], version, rfl, by simp, by rw [hspan, List.append_nil], ?_⟩
    rw [hspan, trimStart_append_of_blank hgap]
    exact hstart version hne hblank
  cases gap with
  | cons c gap =>
    apply hwhole
    apply hsign.spanSign_append
    simpa using Operator.not_isSignChar_of_isBlank (hgap c (by simp))
  | nil =>
    obtain ⟨c, tail, rfl⟩ := List.exists_cons_of_ne_nil hne
    by_cases hc : c = '='
    · subst hc
      have htail : tail ≠ [] := by
        rintro rfl
        exact hbody rfl
      have htaken : spanSign (sign ++ ('=' :: (tail ++ more))) = (sign ++ ['='], tail ++ more) →
          ∃ equals behind, '=' :: tail = equals ++ behind ∧ (∀ c ∈ equals, c = '=') ∧
            (spanSign (sign ++ ([] ++ ('=' :: tail ++ more)))).1 = sign ++ equals ∧
              trimStart (spanSign (sign ++ ([] ++ ('=' :: tail ++ more)))).2 = behind ++ more := by
        intro hspan
        refine ⟨['='], tail, rfl, by simp, by simp [hspan], ?_⟩
        simpa [hspan] using hstart tail htail fun d hd => hblank d (by simp [hd])
      rcases hsign with rfl | rfl | rfl | rfl | rfl | rfl
      · exact htaken rfl
      · exact htaken rfl
      · exact hwhole rfl
      · exact htaken rfl
      · exact hwhole rfl
      · exact hwhole rfl
    · apply hwhole
      apply hsign.spanSign_append
      have hhead := hangle c (by simp)
      simp [Operator.isSignChar_eq_false_iff, hc, hhead]

theorem not_isBlank_of_mem_head?_sign {sign gap version : Text} (hsign : Operator.IsSign sign)
    (hnone : sign = [] → gap = []) (hblank : ∀ c ∈ version, isBlank c = false)
    (hne : version ≠ []) (more : Text) :
    ∀ c ∈ (sign ++ (gap ++ (version ++ more))).head?, isBlank c = false := by
  obtain ⟨d, tail, rfl⟩ := List.exists_cons_of_ne_nil hne
  rcases hsign with rfl | rfl | rfl | rfl | rfl | rfl
  · obtain rfl := hnone rfl
    simpa using hblank d (by simp)
  all_goals
    simp
    decide

section Break

variable {more : Text} (hmore : IsBreak more)

include hmore

/-- Behind a version that was found, the rest of a token without blanks and signs goes
through the search, up to the lead that it leaves. -/
theorem closeSigns_append_of_solid {text : Text} (hblank : ∀ c ∈ text, isBlank c = false)
    (hsign : ∀ c ∈ text, Operator.isSignChar c = false) :
    ∃ front, text = front ++ openLead text ∧
      closeSigns (text ++ more) = front ++ closeSigns (openLead text ++ more) := by
  fun_induction openLead text with
  | case1 => exact ⟨[], rfl, rfl⟩
  | case2 c tail rest hafter ih =>
    have hsuffix := (afterVersion?_isBehind hafter).1
    have hbody := dropWhile_ne_nil_of_afterVersion? hafter
    obtain ⟨front, hfront, hclose⟩ :=
      ih (fun d hd => hblank d (hsuffix.mem hd)) fun d hd => hsign d (hsuffix.mem hd)
    have hoperand : operand? ((c :: tail) ++ more) =
        some ([], before (c :: tail) rest, rest ++ more) := by
      have happend := afterVersion?_append hmore hbody
      rw [List.cons_append] at happend ⊢
      rw [operand?_of_head (hblank c (by simp)) (hsign c (by simp)), happend, hafter]
      simp [← before_append_append hsuffix more]
    refine ⟨before (c :: tail) rest ++ front, ?_, ?_⟩
    · rw [List.append_assoc, ← hfront, before_append hsuffix]
    · rw [closeSigns_of_operand? hoperand, hclose]
      simp
  | case3 c tail hnone hlead => exact ⟨[], rfl, rfl⟩
  | case4 c tail hnone hlead ih =>
    have hbody : (c :: tail).dropWhile Partial.isLead ≠ [] := by
      simpa [List.dropWhile_eq_nil_iff] using hlead
    obtain ⟨front, hfront, hclose⟩ :=
      ih (fun d hd => hblank d (by simp [hd])) fun d hd => hsign d (by simp [hd])
    have hoperand : operand? (c :: (tail ++ more)) = none := by
      have happend := afterVersion?_append hmore hbody
      rw [hnone, List.cons_append] at happend
      rw [operand?_of_head (hblank c (by simp)) (hsign c (by simp)), happend]
      rfl
    refine ⟨c :: front, by rw [List.cons_append, ← hfront], ?_⟩
    rw [List.cons_append, closeSigns_of_none hoperand, hclose, List.cons_append]

/-- Behind a sign the blanks go, and the search goes on behind the version. -/
theorem closeSigns_sign {front sign gap version rest : Text}
    (hfront : ∀ c ∈ front, isBlank c = true) (hsign : Operator.IsSign sign)
    (hgap : ∀ c ∈ gap, isBlank c = true) (hnone : sign = [] → gap = [])
    (hblank : ∀ c ∈ version, isBlank c = false)
    (hangle : ∀ c ∈ version.head?, c ≠ '<' ∧ c ≠ '>')
    (hafter : afterVersion? version = some rest) :
    closeSigns (front ++ (sign ++ (gap ++ (version ++ more)))) =
      front ++ (sign ++ (before version rest ++ closeSigns (rest ++ more))) := by
  have hbody := dropWhile_ne_nil_of_afterVersion? hafter
  have hne : version ≠ [] := by
    rintro rfl
    exact hbody rfl
  have hhead := not_isBlank_of_mem_head?_sign hsign hnone hblank hne more
  obtain ⟨equals, behind, rfl, hequals, hsignPart, hversionPart⟩ :=
    exists_spanSign hsign hgap hblank hangle hbody more
  have hlead : ∀ c ∈ equals, Partial.isLead c = true := fun c hc => by
    rw [hequals c hc]
    rfl
  rw [afterVersion?_append_lead hlead] at hafter
  have hsuffix := (afterVersion?_isBehind hafter).1
  have hbehind : afterVersion? (behind ++ more) = some (rest ++ more) := by
    rw [afterVersion?_append hmore (dropWhile_ne_nil_of_afterVersion? hafter), hafter]
    rfl
  have hoperand : operand? (front ++ (sign ++ (gap ++ (equals ++ behind ++ more)))) =
      some (front ++ (sign ++ equals), before behind rest, rest ++ more) := by
    have hstart : trimStart (front ++ (sign ++ (gap ++ (equals ++ behind ++ more)))) =
        sign ++ (gap ++ (equals ++ behind ++ more)) := by
      rw [trimStart_append_of_blank hfront]
      exact trimStart_eq_self hhead
    have hfrontPart : (front ++ (sign ++ (gap ++ (equals ++ behind ++ more)))).takeWhile isBlank =
        front := by
      have hsplit := takeWhile_append_trimStart (sign ++ (gap ++ (equals ++ behind ++ more)))
      rw [trimStart_eq_self hhead, List.append_left_eq_self] at hsplit
      rw [List.takeWhile_append_of_pos hfront, hsplit, List.append_nil]
    rw [operand?, hstart, hsignPart, hversionPart, hbehind, hfrontPart]
    simp [before_append_append hsuffix]
  rw [closeSigns_of_operand? hoperand, before_append_left hsuffix]
  simp

/-- Behind a lead that stays open, an equals sign and the blanks around it go into the
version, and so do blanks without a sign. -/
theorem closeSigns_open {lead between version rest : Text} (hlead : ∀ c ∈ lead, c = 'v')
    (hne : lead ≠ []) (hbetween : ∀ c ∈ between, Partial.isLead c = true)
    (hafter : afterVersion? version = some rest) :
    closeSigns (lead ++ (between ++ (version ++ more))) =
      lead ++ (between ++ (before version rest ++ closeSigns (rest ++ more))) := by
  have hbehind : afterVersion? (lead ++ (between ++ (version ++ more))) = some (rest ++ more) := by
    have hall : ∀ c ∈ lead, Partial.isLead c = true := fun c hc => by
      rw [hlead c hc]
      rfl
    rw [afterVersion?_append_lead hall, afterVersion?_append_lead hbetween,
      afterVersion?_append hmore (dropWhile_ne_nil_of_afterVersion? hafter), hafter]
    rfl
  have hbefore : before (lead ++ (between ++ (version ++ more))) (rest ++ more) =
      lead ++ (between ++ before version rest) := by
    have hsuffix := (afterVersion?_isBehind hafter).1
    have happend : rest ++ more <:+ version ++ more := by
      obtain ⟨front, rfl⟩ := hsuffix
      exact ⟨front, by rw [List.append_assoc]⟩
    rw [before_append_left (happend.trans (List.suffix_append _ _)), before_append_left happend,
      before_append_append hsuffix]
  obtain ⟨c, tail, rfl⟩ := List.exists_cons_of_ne_nil hne
  obtain rfl : c = 'v' := hlead c (by simp)
  rw [List.cons_append] at hbehind hbefore ⊢
  have hoperand := operand?_of_head (c := 'v') (by decide) (by decide)
    (tail ++ (between ++ (version ++ more)))
  rw [hbehind, Option.map_some, hbefore] at hoperand
  rw [closeSigns_of_operand? hoperand]
  simp

end Break

/-- A lead in front of no version is passed over. -/
theorem closeSigns_lead {lead text : Text} (hlead : ∀ c ∈ lead, c = 'v')
    (hnone : afterVersion? text = none) : closeSigns (lead ++ text) = lead ++ closeSigns text := by
  induction lead with
  | nil => rfl
  | cons c lead ih =>
    obtain ⟨rfl, hrest⟩ := List.forall_mem_cons.mp hlead
    have hall : ∀ d ∈ 'v' :: lead, Partial.isLead d = true := fun d hd => by
      rw [hlead d hd]
      rfl
    have hoperand : operand? ('v' :: (lead ++ text)) = none := by
      have happend := afterVersion?_append_lead hall text
      rw [List.cons_append, hnone] at happend
      rw [operand?_of_head (by decide) (by decide), happend]
      rfl
    rw [List.cons_append, closeSigns_of_none hoperand, ih hrest, List.cons_append]

/-- Whether a character cannot begin a version. -/
def isBarrier (c : Char) : Bool :=
  c == '<' || c == '>' || c == '~' || c == '^'

/-- Where a sign or mark follows that cannot begin a version, none is found. -/
theorem afterVersion?_barrier {front : Text} (hfront : ∀ c ∈ front, isBlank c = true)
    {mark : Char} (hmark : isBarrier mark = true) (text : Text) :
    afterVersion? (front ++ mark :: text) = none := by
  have hlead : ∀ c ∈ front, Partial.isLead c = true := fun c hc => by
    simp [Partial.isLead, hfront c hc]
  rw [afterVersion?_append_lead hlead]
  simp only [isBarrier, Bool.or_eq_true, beq_iff_eq] at hmark
  rcases hmark with ((rfl | rfl) | rfl) | rfl <;>
    simp [afterVersion?, Partial.isLead, isBlank, blankRanges, afterLoose?, afterPartial?,
      afterNumeral?, afterComponent?]

/-- The search for signs passes over a tilde or caret. -/
theorem closeSigns_mark {front : Text} (hfront : ∀ c ∈ front, isBlank c = true) {mark : Char}
    (hmark : mark = '~' ∨ mark = '^') (text : Text) :
    closeSigns (front ++ mark :: text) = front ++ mark :: closeSigns text := by
  have hsolid : isBlank mark = false := by rcases hmark with rfl | rfl <;> decide
  have hsign : Operator.isSignChar mark = false := by rcases hmark with rfl | rfl <;> decide
  have hbarrier : isBarrier mark = true := by rcases hmark with rfl | rfl <;> decide
  have hoperand : ∀ blanks : Text, (∀ c ∈ blanks, isBlank c = true) →
      operand? (blanks ++ mark :: text) = none := by
    intro blanks hblanks
    have hspan := spanSign_of_head hsign text
    have hnone : afterVersion? ([] ++ mark :: text) = none :=
      afterVersion?_barrier (by simp) hbarrier text
    rw [List.nil_append] at hnone
    rw [operand?, trimStart_append_of_blank hblanks, trimStart_cons_of_not_blank hsolid, hspan,
      trimStart_cons_of_not_blank hsolid, hnone]
    rfl
  induction front with
  | nil => exact closeSigns_of_none (hoperand [] (by simp))
  | cons c front ih =>
    have hnone := hoperand (c :: front) hfront
    rw [List.cons_append] at hnone
    rw [List.cons_append, closeSigns_of_none hnone, ih fun d hd => hfront d (by simp [hd]),
      List.cons_append]

end Spacing

end SemanticVersions
