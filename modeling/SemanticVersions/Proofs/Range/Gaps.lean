import SemanticVersions.Proofs.Grammar.Entries
import SemanticVersions.Proofs.Range.Extent
import SemanticVersions.Proofs.Range.Normal

/-!
# Blanks behind operators

An alternative is a row of tokens, each an operator and a version.  Blanks between the two
are dropped before the alternative is cut at its blanks, so the tokens come out closed.  One
kind of gap stays: an equals sign directly behind a version that leaves a lead open belongs
to the search for the next version, and is no sign in front of it.
-/

namespace SemanticVersions

/-- The operators that a version may have in front of it. -/
def tokenOperators : List Text :=
  [[], ['<'], ['<', '='], ['>'], ['>', '='], ['='], ['~'], ['~', '>'], ['^']]

/-- A token of an alternative as it is spaced: an operator and a full or partial version with
a gap between them.  The blanks of `front` stand in front of a token that is not the first. -/
structure SpacedToken where
  front : Text
  operator : Text
  gap : Text
  version : Text
  front_ne_nil : front ≠ []
  front_blank : ∀ c ∈ front, isBlank c = true
  operator_known : operator ∈ tokenOperators
  gap_blank : ∀ c ∈ gap, isBlank c = true
  gap_eq_nil : operator = [] → gap = []
  version_reads : ∃ value, Partial.read? version = some value
  version_solid : ∀ c ∈ version, isBlank c = false

namespace SpacedToken

def behindBlank (operator gap version : Text) (hoperator : operator ∈ tokenOperators)
    (hblank : ∀ c ∈ gap, isBlank c = true) (hnil : operator = [] → gap = [])
    (hreads : ∃ value, Partial.read? version = some value)
    (hsolid : ∀ c ∈ version, isBlank c = false) : SpacedToken where
  front := [' ']
  operator := operator
  gap := gap
  version := version
  front_ne_nil := by simp
  front_blank := isBlank_of_all (by decide)
  operator_known := hoperator
  gap_blank := hblank
  gap_eq_nil := hnil
  version_reads := hreads
  version_solid := hsolid

def bare (version : Text) (hreads : ∃ value, Partial.read? version = some value)
    (hsolid : ∀ c ∈ version, isBlank c = false) : SpacedToken :=
  behindBlank [] [] version List.mem_cons_self (List.forall_mem_nil _) (fun _ => rfl) hreads hsolid

def text (token : SpacedToken) : Text :=
  token.operator ++ (token.gap ++ token.version)

def closed (token : SpacedToken) : SpacedToken :=
  { token with gap := [], gap_blank := List.forall_mem_nil _, gap_eq_nil := fun _ => rfl }

/-- Whether the version of a token leaves a lead to what stands behind it. -/
def leavesLead (token : SpacedToken) : Bool :=
  !(Spacing.openLead token.version).isEmpty

/-- Tokens that are not the first of an alternative, each with its blanks in front. -/
def laterText (tokens : List SpacedToken) : Text :=
  tokens.flatMap fun token => token.front ++ token.text

def textOfList : List SpacedToken → Text
  | [] => []
  | first :: others => first.text ++ laterText others

@[simp] theorem version_closed (token : SpacedToken) : token.closed.version = token.version := rfl

@[simp] theorem operator_closed (token : SpacedToken) : token.closed.operator = token.operator :=
  rfl

@[simp] theorem front_closed (token : SpacedToken) : token.closed.front = token.front := rfl

@[simp] theorem closed_closed (token : SpacedToken) : token.closed.closed = token.closed := rfl

@[simp] theorem leavesLead_closed (token : SpacedToken) :
    token.closed.leavesLead = token.leavesLead := rfl

theorem text_closed (token : SpacedToken) :
    token.closed.text = token.operator ++ token.version := rfl

@[simp] theorem laterText_nil : laterText [] = [] := rfl

@[simp] theorem laterText_cons (token : SpacedToken) (tokens : List SpacedToken) :
    laterText (token :: tokens) = token.front ++ (token.text ++ laterText tokens) := by
  simp [laterText]

/-- Later tokens begin with a blank, if there are any. -/
theorem isBreak_laterText (tokens : List SpacedToken) : IsBreak (laterText tokens) := by
  cases tokens with
  | nil => exact isBreak_nil
  | cons token tokens =>
    obtain ⟨c, front, hfront⟩ := List.exists_cons_of_ne_nil token.front_ne_nil
    have hblank : isBlank c = true := token.front_blank c (by simp [hfront])
    rw [laterText_cons, hfront]
    exact isBreak_cons hblank _

/-! ### The version of a token -/

section Version

variable (token : SpacedToken)

theorem not_mem_version {mark : Char} (hlead : Partial.isLead mark = false)
    (hbody : Partial.isBodyChar mark = false) : mark ∉ token.version := by
  obtain ⟨value, hread⟩ := token.version_reads
  exact Partial.not_mem_of_read? hread hlead hbody

theorem version_ne_nil : token.version ≠ [] := by
  intro hnil
  obtain ⟨value, hread⟩ := token.version_reads
  rw [hnil] at hread
  cases hread

theorem exists_afterVersion? : ∃ rest, Operand.afterVersion? token.version = some rest ∧
    rest <:+ token.version ∧ ∀ c ∈ rest, Operator.isSignChar c = false := by
  obtain ⟨value, hread⟩ := token.version_reads
  obtain ⟨rest, hafter⟩ := Operand.exists_afterVersion? hread
  obtain ⟨release, suffix, build, hparts⟩ := Partial.exists_read?_iff.mp token.version_reads
  refine ⟨rest, hafter, (Operand.afterVersion?_isBehind hafter).1, fun c hc => ?_⟩
  have hbody := hparts.isBodyChar ((Operand.afterVersion?_suffix hafter).mem hc)
  exact Operator.isSignChar_eq_false_iff.mpr
    ⟨ne_of_class hbody (by decide), ne_of_class hbody (by decide), ne_of_class hbody (by decide)⟩

end Version

/-! ### Closing -/

/-- A token behind the search for signs, which leaves the gaps of tildes and carets, and that
of an equals sign behind an open lead. -/
def afterSigns (isOpen : Bool) (token : SpacedToken) : SpacedToken :=
  if token.operator = ['~'] ∨ token.operator = ['^'] ∨ isOpen = true ∧ token.operator = ['='] then
    token
  else
    token.closed

theorem gap_afterSigns (isOpen : Bool) (token : SpacedToken) :
    (token.afterSigns isOpen).gap =
      if token.operator = ['~'] ∨ token.operator = ['^'] ∨
        isOpen = true ∧ token.operator = ['='] then token.gap else [] := by
  rw [afterSigns]
  split <;> rfl

section Search

open Spacing

variable (token : SpacedToken) {lead front more rest : Text} (hlead : ∀ c ∈ lead, c = 'v')
  (hfront : ∀ c ∈ front, isBlank c = true) (hmore : IsBreak more)
  (hafter : Operand.afterVersion? token.version = some rest)

include hmore hafter in
theorem closeSigns_signed {blanks sign gap : Text} (hblanks : ∀ c ∈ blanks, isBlank c = true)
    (hsign : Operator.IsSign sign) (hgap : ∀ c ∈ gap, isBlank c = true)
    (hnone : sign = [] → gap = []) :
    closeSigns (blanks ++ (sign ++ (gap ++ (token.version ++ more)))) =
      blanks ++ (sign ++ (before token.version rest ++ closeSigns (rest ++ more))) := by
  apply closeSigns_sign hmore hblanks hsign hgap hnone token.version_solid _ hafter
  intro c hc
  have hmem := List.mem_of_mem_head? hc
  constructor
  · rintro rfl
    exact token.not_mem_version (by decide) (by decide) hmem
  · rintro rfl
    exact token.not_mem_version (by decide) (by decide) hmem

include hlead hfront in
theorem closeSigns_barrier {mark : Char} (hmark : isBarrier mark = true) (text : Text) :
    closeSigns (lead ++ (front ++ mark :: text)) = lead ++ closeSigns (front ++ mark :: text) :=
  closeSigns_lead hlead (afterVersion?_barrier hfront hmark text)

include hlead hfront hmore hafter

theorem closeSigns_before :
    closeSigns (lead ++ (front ++ (token.text ++ more))) =
      lead ++ (front ++ (token.operator ++ ((token.afterSigns (!lead.isEmpty)).gap ++
        (before token.version rest ++ closeSigns (rest ++ more))))) := by
  have hangle : ∀ (mark : Char) (sign : Text), isBarrier mark = true →
      Operator.IsSign (mark :: sign) →
        closeSigns (lead ++ (front ++ mark :: (sign ++ (token.gap ++ (token.version ++ more))))) =
          lead ++ (front ++ mark :: (sign ++
            (before token.version rest ++ closeSigns (rest ++ more)))) := by
    intro mark sign hmark hsign
    have hsigned := token.closeSigns_signed hmore hafter hfront hsign token.gap_blank (by simp)
    rw [closeSigns_barrier hlead hfront hmark]
    exact congrArg (lead ++ ·) hsigned
  have hmark : ∀ mark : Char, isBarrier mark = true → (mark = '~' ∨ mark = '^') →
      ∀ text, closeSigns (lead ++ (front ++ mark :: text)) =
        lead ++ (front ++ mark :: closeSigns text) := by
    intro mark hbarrier hmark text
    rw [closeSigns_barrier hlead hfront hbarrier, closeSigns_mark hfront hmark]
  have hgap := token.closeSigns_signed hmore hafter token.gap_blank (.inl rfl)
    (List.forall_mem_nil _) (fun _ => rfl)
  have hblank : ∀ {blanks : Text}, (∀ c ∈ blanks, isBlank c = true) →
      ∀ c ∈ blanks, Partial.isLead c = true := fun hblanks c hc => by
    simp [Partial.isLead, hblanks c hc]
  rw [gap_afterSigns, text, List.append_assoc, List.append_assoc]
  have hknown := token.operator_known
  simp only [tokenOperators, List.mem_cons, List.not_mem_nil, or_false] at hknown
  rcases hknown with hoperator | hoperator | hoperator | hoperator | hoperator | hoperator |
    hoperator | hoperator | hoperator
  · have hnone := token.gap_eq_nil hoperator
    by_cases hopen : lead = []
    · subst hopen
      simpa [hoperator, hnone] using token.closeSigns_signed hmore hafter hfront (.inl rfl)
        token.gap_blank fun _ => hnone
    · simpa [hoperator, hnone] using
        closeSigns_open hmore hlead hopen (hblank hfront) hafter
  · simpa [hoperator] using hangle '<' [] rfl (by simp [Operator.IsSign])
  · simpa [hoperator] using hangle '<' ['='] rfl (by simp [Operator.IsSign])
  · simpa [hoperator] using hangle '>' [] rfl (by simp [Operator.IsSign])
  · simpa [hoperator] using hangle '>' ['='] rfl (by simp [Operator.IsSign])
  · by_cases hopen : lead = []
    · subst hopen
      have hsign : Operator.IsSign ['='] := by simp [Operator.IsSign]
      simpa [hoperator] using token.closeSigns_signed hmore hafter hfront hsign token.gap_blank
        (by simp)
    · have hbetween : ∀ c ∈ front ++ '=' :: token.gap, Partial.isLead c = true := by
        simp only [List.forall_mem_append, List.forall_mem_cons]
        exact ⟨hblank hfront, rfl, hblank token.gap_blank⟩
      simpa [hoperator, hopen] using closeSigns_open hmore hlead hopen hbetween hafter
  · simp only [List.nil_append] at hgap
    simp [hoperator, hmark '~' rfl (.inl rfl), hgap]
  · have hsign : Operator.IsSign ['>'] := by simp [Operator.IsSign]
    have hangled := token.closeSigns_signed hmore hafter (List.forall_mem_nil _) hsign
      token.gap_blank (by simp)
    simp only [List.nil_append, List.singleton_append] at hangled
    simp [hoperator, hmark '~' rfl (.inl rfl), hangled]
  · simp only [List.nil_append] at hgap
    simp [hoperator, hmark '^' rfl (.inr rfl), hgap]

omit hafter in
/-- The search goes through a token up to the lead that its version leaves. -/
theorem closeSigns_text :
    ∃ head, token.version = head ++ openLead token.version ∧
      closeSigns (lead ++ (front ++ (token.text ++ more))) =
        lead ++ (front ++ (token.operator ++ ((token.afterSigns (!lead.isEmpty)).gap ++
          (head ++ closeSigns (openLead token.version ++ more))))) := by
  obtain ⟨rest, hafter, hsuffix, hsign⟩ := token.exists_afterVersion?
  obtain ⟨tail, htail, hclose⟩ := closeSigns_append_of_solid hmore
    (fun c hc => token.version_solid c (hsuffix.mem hc)) hsign
  refine ⟨before token.version rest ++ tail, ?_, ?_⟩
  · rw [openLead_eq_of_afterVersion? hafter, List.append_assoc, ← htail, before_append hsuffix]
  · rw [token.closeSigns_before hlead hfront hmore hafter, hclose,
      openLead_eq_of_afterVersion? hafter, List.append_assoc]

end Search

/-! ### Tokens in a row -/

/-- Tokens behind the search for signs; `isOpen` tells that a lead stands in front of them. -/
def allAfterSigns (isOpen : Bool) : List SpacedToken → List SpacedToken
  | [] => []
  | token :: tokens => token.afterSigns isOpen :: allAfterSigns token.leavesLead tokens

theorem text_afterSigns (isOpen : Bool) (token : SpacedToken) :
    (token.afterSigns isOpen).text =
      token.operator ++ ((token.afterSigns isOpen).gap ++ token.version) := by
  rw [afterSigns]
  split <;> rfl

@[simp] theorem front_afterSigns (isOpen : Bool) (token : SpacedToken) :
    (token.afterSigns isOpen).front = token.front := by
  rw [afterSigns]
  split <;> rfl

open Spacing in
/-- What a version leaves is a run of `v`. -/
theorem eq_v_of_mem_openLead (token : SpacedToken) : ∀ c ∈ openLead token.version, c = 'v' := by
  obtain ⟨rest, hafter, hsuffix, hsign⟩ := token.exists_afterVersion?
  intro c hc
  have hlead := isLead_of_mem_openLead hc
  rw [openLead_eq_of_afterVersion? hafter] at hc
  have hmem := (openLead_suffix rest).mem hc
  have hblank := token.version_solid c (hsuffix.mem hmem)
  have hequal := (Operator.isSignChar_eq_false_iff.mp (hsign c hmem)).2.2
  simpa [Partial.isLead, hblank, hequal] using hlead

/-- Behind a lead the search for signs goes on from token to token. -/
theorem closeSigns_laterText (tokens : List SpacedToken) {lead : Text}
    (hlead : ∀ c ∈ lead, c = 'v') :
    Spacing.closeSigns (lead ++ laterText tokens) =
      lead ++ laterText (allAfterSigns (!lead.isEmpty) tokens) := by
  induction tokens generalizing lead with
  | nil =>
    have hnone : Operand.afterVersion? [] = none := rfl
    simpa [allAfterSigns, Spacing.closeSigns] using Spacing.closeSigns_lead hlead hnone
  | cons token tokens ih =>
    obtain ⟨head, hversion, hclose⟩ := token.closeSigns_text hlead token.front_blank
      (isBreak_laterText tokens)
    have hrest := ih token.eq_v_of_mem_openLead
    rw [laterText_cons, hclose, hrest, allAfterSigns, laterText_cons, text_afterSigns,
      front_afterSigns]
    conv_rhs => rw [hversion]
    simp [leavesLead]

/-- The search for signs takes each token by itself, but for the lead in front of it. -/
theorem closeSigns_textOfList (tokens : List SpacedToken) :
    Spacing.closeSigns (textOfList tokens) = textOfList (allAfterSigns false tokens) := by
  cases tokens with
  | nil => simp [textOfList, allAfterSigns, Spacing.closeSigns]
  | cons token tokens =>
    obtain ⟨head, hversion, hclose⟩ := token.closeSigns_text (List.forall_mem_nil _)
      (List.forall_mem_nil _) (isBreak_laterText tokens)
    have hrest := closeSigns_laterText tokens token.eq_v_of_mem_openLead
    simp only [List.nil_append] at hclose
    rw [textOfList, hclose, hrest, allAfterSigns, textOfList, text_afterSigns]
    conv_rhs => rw [hversion]
    simp [leavesLead]

/-! ### Tildes and carets -/

section Marks

open Spacing

theorem closeGaps_append {mark : Char} {text : Text} (htext : mark ∉ text) (more : Text) :
    closeGaps mark false (text ++ more) = text ++ closeGaps mark false more := by
  induction text with
  | nil => rfl
  | cons c text ih =>
    obtain ⟨hc, hrest⟩ := not_or.mp (mt List.mem_cons.mpr htext)
    have hmark : (c == mark) = false := by simpa using Ne.symm hc
    simp [closeGaps, hmark, ih hrest]

theorem closeGaps_gap (mark : Char) {gap version : Text} (hgap : ∀ c ∈ gap, isBlank c = true)
    (hsolid : ∀ c ∈ version, isBlank c = false) (hne : version ≠ []) (more : Text) :
    closeGaps mark true (gap ++ (version ++ more)) = closeGaps mark false (version ++ more) := by
  obtain ⟨d, tail, rfl⟩ := List.exists_cons_of_ne_nil hne
  induction gap with
  | nil => simp [closeGaps, hsolid d (by simp)]
  | cons c gap ih =>
    obtain ⟨hc, hrest⟩ := List.forall_mem_cons.mp hgap
    simpa [closeGaps, hc] using ih hrest

theorem shortenTildes_append {text : Text} (htext : '~' ∉ text) (more : Text) :
    shortenTildes (text ++ more) = text ++ shortenTildes more := by
  induction text with
  | nil => rfl
  | cons c text ih =>
    obtain ⟨hc, hrest⟩ := not_or.mp (mt List.mem_cons.mpr htext)
    rw [List.cons_append, shortenTildes, ih hrest, List.cons_append]
    rintro d rest rfl _
    exact hc rfl

theorem shortenTildes_angle {text : Text} (hhead : ∀ c ∈ text.head?, isBlank c = false) :
    shortenTildes ('~' :: '>' :: text) = '~' :: '>' :: shortenTildes text := by
  cases text with
  | nil => rfl
  | cons c rest => simp [shortenTildes, hhead c rfl]

theorem shortenTildes_tilde {text : Text} (hhead : '>' ∉ text.head?) :
    shortenTildes ('~' :: text) = '~' :: shortenTildes text := by
  rw [shortenTildes]
  rintro c rest _ rfl
  exact hhead rfl

end Marks

theorem textOfList_map {rewrite : Text → Text} (result : SpacedToken → SpacedToken)
    (hnil : rewrite [] = [])
    (hblank : ∀ {blanks : Text}, (∀ c ∈ blanks, isBlank c = true) → ∀ more,
      rewrite (blanks ++ more) = blanks ++ rewrite more)
    (hfront : ∀ token, (result token).front = token.front) {tokens : List SpacedToken}
    (htext : ∀ token ∈ tokens, ∀ more,
      rewrite (token.text ++ more) = (result token).text ++ rewrite more) :
    rewrite (textOfList tokens) = textOfList (tokens.map result) := by
  have hlater : ∀ others : List SpacedToken, others ⊆ tokens →
      rewrite (laterText others) = laterText (others.map result) := by
    intro others hothers
    induction others with
    | nil => exact hnil
    | cons token others ih =>
      obtain ⟨htoken, hrest⟩ := List.cons_subset.mp hothers
      rw [laterText_cons, hblank token.front_blank, htext token htoken, ih hrest, List.map_cons,
        laterText_cons, hfront]
  cases tokens with
  | nil => exact hnil
  | cons first others =>
    rw [textOfList, htext first (by simp), hlater others (by simp), List.map_cons, textOfList]

def afterMark (mark : Char) (token : SpacedToken) : SpacedToken :=
  if token.operator = [mark] then token.closed else token

theorem front_afterMark (mark : Char) (token : SpacedToken) :
    (token.afterMark mark).front = token.front := by
  rw [afterMark]
  split <;> rfl

/-- Only a tilde has an operator that goes on behind it. -/
theorem operator_cases {mark : Char} (hmark : mark = '~' ∨ mark = '^') (token : SpacedToken) :
    token.operator = [mark] ∨ mark ∉ token.operator ∨
      mark = '~' ∧ token.operator = ['~', '>'] := by
  have hall : ∀ operator ∈ tokenOperators,
      (operator = ['~'] ∨ '~' ∉ operator ∨ operator = ['~', '>']) ∧
        (operator = ['^'] ∨ '^' ∉ operator) := by decide
  obtain ⟨htilde, hcaret⟩ := hall token.operator token.operator_known
  rcases hmark with rfl | rfl
  · simpa using htilde
  · exact hcaret.imp_right .inl

theorem not_mem_behind (token : SpacedToken) {mark : Char}
    (hmark : Partial.isLead mark = false) (hbody : Partial.isBodyChar mark = false) :
    mark ∉ token.gap ++ token.version := by
  have hblank : isBlank mark = false := by
    simp only [Partial.isLead, Bool.or_eq_false_iff] at hmark
    exact hmark.2
  rw [List.mem_append, not_or]
  exact ⟨not_mem_of_class token.gap_blank hblank, token.not_mem_version hmark hbody⟩

theorem closeGaps_text {mark : Char} (hmark : mark = '~' ∨ mark = '^') (token : SpacedToken)
    (more : Text) : Spacing.closeGaps mark false (token.text ++ more) =
      (token.afterMark mark).text ++ Spacing.closeGaps mark false more := by
  have hbehind : mark ∉ token.gap ++ token.version := by
    rcases hmark with rfl | rfl <;> exact token.not_mem_behind (by decide) (by decide)
  rcases operator_cases hmark token with hoperator | hother | ⟨rfl, hoperator⟩
  · have hversion : mark ∉ token.version := fun hmem => hbehind (by simp [hmem])
    have hgap := closeGaps_gap mark token.gap_blank token.version_solid token.version_ne_nil more
    rw [afterMark, if_pos hoperator, text_closed, text, hoperator]
    simp [Spacing.closeGaps, hgap, closeGaps_append hversion]
  · have hne : token.operator ≠ [mark] := fun heq => hother (by simp [heq])
    have hall : mark ∉ token.text := by
      rw [text, List.mem_append]
      exact not_or.mpr ⟨hother, hbehind⟩
    rw [afterMark, if_neg hne, closeGaps_append hall]
  · have hrest := closeGaps_append hbehind more
    have hangle : isBlank '>' = false := by decide
    rw [afterMark, if_neg (by simp [hoperator]), text, hoperator]
    simpa [Spacing.closeGaps, hangle] using hrest

theorem shortenTildes_text {token : SpacedToken}
    (hgap : token.operator = ['~', '>'] → token.gap = []) (more : Text) :
    Spacing.shortenTildes (token.text ++ more) = token.text ++ Spacing.shortenTildes more := by
  have hbehind : '~' ∉ token.gap ++ token.version :=
    token.not_mem_behind (by decide) (by decide)
  rcases operator_cases (.inl rfl) token with hoperator | hother | ⟨-, hoperator⟩
  · have hangle : '>' ∉ token.gap ++ token.version :=
      token.not_mem_behind (by decide) (by decide)
    have hne : token.gap ++ token.version ≠ [] := by simp [token.version_ne_nil]
    have hhead : '>' ∉ (token.gap ++ token.version ++ more).head? := by
      rw [List.head?_append_of_ne_nil _ hne]
      exact fun hmem => hangle (List.mem_of_mem_head? hmem)
    rw [text, hoperator, List.singleton_append, List.cons_append, shortenTildes_tilde hhead,
      shortenTildes_append hbehind, List.cons_append]
  · have hall : '~' ∉ token.text := by
      rw [text, List.mem_append]
      exact not_or.mpr ⟨hother, hbehind⟩
    exact shortenTildes_append hall more
  · have hrest := shortenTildes_append hbehind more
    rw [hgap hoperator, List.nil_append] at hrest
    have hsolid : ∀ c ∈ (token.version ++ more).head?, isBlank c = false := by
      intro c hc
      rw [List.head?_append_of_ne_nil _ token.version_ne_nil] at hc
      exact token.version_solid c (List.mem_of_mem_head? hc)
    rw [text, hoperator, hgap hoperator]
    exact (shortenTildes_angle hsolid).trans (by rw [hrest]; rfl)

/-- A token with its gap closed, unless it belongs to the search for the next version. -/
def closedBehind (isOpen : Bool) (token : SpacedToken) : SpacedToken :=
  if isOpen = true ∧ token.operator = ['='] then token else token.closed

def allClosed (isOpen : Bool) : List SpacedToken → List SpacedToken
  | [] => []
  | token :: tokens => token.closedBehind isOpen :: allClosed token.leavesLead tokens

theorem map_allAfterSigns (isOpen : Bool) (tokens : List SpacedToken) :
    (allAfterSigns isOpen tokens).map (afterMark '^' ∘ afterMark '~') =
      allClosed isOpen tokens := by
  induction tokens generalizing isOpen with
  | nil => rfl
  | cons token tokens ih =>
    rw [allAfterSigns, allClosed, List.map_cons, ih]
    congr 1
    by_cases htilde : token.operator = ['~']
    · simp [afterSigns, afterMark, closedBehind, htilde]
    · by_cases hcaret : token.operator = ['^']
      · simp [afterSigns, afterMark, closedBehind, hcaret]
      · by_cases hequal : isOpen = true ∧ token.operator = ['='] <;>
          simp [afterSigns, afterMark, closedBehind, htilde, hcaret, hequal]

theorem gap_of_mem_allAfterSigns {isOpen : Bool} {tokens : List SpacedToken} {token : SpacedToken}
    (hmem : token ∈ allAfterSigns isOpen tokens) (hoperator : token.operator = ['~', '>']) :
    token.gap = [] := by
  induction tokens generalizing isOpen with
  | nil => cases hmem
  | cons first tokens ih =>
    rcases List.mem_cons.mp hmem with rfl | hmem
    · have hfirst : first.operator = ['~', '>'] := by simpa [afterSigns, apply_ite] using hoperator
      simp [gap_afterSigns, hfirst]
    · exact ih hmem

/-- Closing gaps leaves that of an equals sign behind an open lead and no other. -/
theorem close_textOfList (tokens : List SpacedToken) :
    Spacing.close (textOfList tokens) = textOfList (allClosed false tokens) := by
  have hshort : Spacing.shortenTildes (textOfList (allAfterSigns false tokens)) =
      textOfList (allAfterSigns false tokens) := by
    have htext : ∀ token ∈ allAfterSigns false tokens, ∀ more,
        Spacing.shortenTildes (token.text ++ more) = token.text ++ Spacing.shortenTildes more :=
      fun token hmem => shortenTildes_text (gap_of_mem_allAfterSigns hmem)
    have hmap := textOfList_map id rfl
      (fun hblanks => shortenTildes_append (not_mem_of_class hblanks (by decide))) (fun _ => rfl)
      htext
    rwa [List.map_id] at hmap
  have hmarked : ∀ mark : Char, (mark = '~' ∨ mark = '^') → ∀ others : List SpacedToken,
      Spacing.closeGaps mark false (textOfList others) =
        textOfList (others.map (afterMark mark)) := by
    intro mark hmark others
    have hsolid : isBlank mark = false := by rcases hmark with rfl | rfl <;> decide
    exact textOfList_map (afterMark mark) rfl
      (fun hblanks => closeGaps_append (not_mem_of_class hblanks hsolid))
      (front_afterMark mark) fun token _ => closeGaps_text hmark token
  rw [Spacing.close, closeSigns_textOfList, Spacing.closeTildes, hshort,
    hmarked '~' (.inl rfl), Spacing.closeCarets, hmarked '^' (.inr rfl), List.map_map,
    map_allAfterSigns]

/-! ### The pieces of an alternative -/

def pieces (token : SpacedToken) : List Text :=
  if token.gap = [] then [token.text] else [token.operator, token.version]

@[simp] theorem pieces_closed (token : SpacedToken) :
    token.closed.pieces = [token.operator ++ token.version] := by
  simp [pieces, closed, text]

theorem operator_solid (token : SpacedToken) : ∀ c ∈ token.operator, isBlank c = false := by
  have hall : ∀ operator ∈ tokenOperators, operator.all (!isBlank ·) = true := by decide
  exact not_isBlank_of_all (hall token.operator token.operator_known)

theorem text_solid {token : SpacedToken} (hgap : token.gap = []) :
    ∀ c ∈ token.text, isBlank c = false := by
  rw [text, hgap, List.nil_append, List.forall_mem_append]
  exact ⟨token.operator_solid, token.version_solid⟩

theorem text_ne_nil (token : SpacedToken) : token.text ≠ [] := by
  simp [text, token.version_ne_nil]

/-- A gap cuts its token in two. -/
theorem piecesFrom_text (token : SpacedToken) (inRun : Bool) (more : Text) :
    ∃ front last inside, token.pieces = front ++ [last] ∧ IsToken last ∧
      piecesFrom inRun (token.text ++ more) = front ++ piecesFrom inside (last ++ more) := by
  by_cases hgap : token.gap = []
  · exact ⟨[], token.text, inRun, by simp [pieces, hgap], ⟨token.text_ne_nil, text_solid hgap⟩, rfl⟩
  · obtain ⟨c, gap, hcons⟩ := List.exists_cons_of_ne_nil hgap
    have hoperator : token.operator ≠ [] := fun hnil => hgap (token.gap_eq_nil hnil)
    have hblank := token.gap_blank
    rw [hcons, List.forall_mem_cons] at hblank
    refine ⟨[token.operator], token.version, true, by simp [pieces, hgap],
      ⟨token.version_ne_nil, token.version_solid⟩, ?_⟩
    rw [text, hcons, List.append_assoc, List.append_assoc, List.cons_append,
      piecesFrom_append_blank token.operator_solid (fun _ => hoperator) hblank.1,
      piecesFrom_blanks hblank.2]
    rfl

theorem piecesFrom_textOfList (first : SpacedToken) (others : List SpacedToken) (inRun : Bool) :
    piecesFrom inRun (first.text ++ laterText others) = (first :: others).flatMap pieces := by
  induction others generalizing first inRun with
  | nil =>
    obtain ⟨front, last, inside, hpieces, hlast, hcut⟩ := first.piecesFrom_text inRun (laterText [])
    rw [hcut, laterText_nil, List.append_nil, piecesFrom_eq_singleton hlast.2]
    simp [hpieces]
  | cons second others ih =>
    obtain ⟨front, last, inside, hpieces, hlast, hcut⟩ :=
      first.piecesFrom_text inRun (laterText (second :: others))
    obtain ⟨c, blanks, hfront⟩ := List.exists_cons_of_ne_nil second.front_ne_nil
    have hblank := second.front_blank
    rw [hfront, List.forall_mem_cons] at hblank
    rw [hcut, laterText_cons, hfront, List.cons_append,
      piecesFrom_append_blank hlast.2 (fun _ => hlast.1) hblank.1, piecesFrom_blanks hblank.2, ih]
    simp [hpieces]

/-- A token is one piece if its gap is closed, and two pieces if not. -/
theorem splitBlanks_textOfList {tokens : List SpacedToken} (hne : tokens ≠ []) :
    splitBlanks (textOfList tokens) = tokens.flatMap pieces := by
  obtain ⟨first, others, rfl⟩ := List.exists_cons_of_ne_nil hne
  exact piecesFrom_textOfList first others false

theorem hyphen_not_mem_pieces (token : SpacedToken) : ['-'] ∉ token.pieces := by
  have hversion : token.version ≠ ['-'] := by
    intro hhyphen
    have hnone : Partial.read? ['-'] = none := by decide
    obtain ⟨value, hread⟩ := token.version_reads
    rw [hhyphen, hnone] at hread
    cases hread
  have hoperator : '-' ∉ token.operator := by
    have hall : ∀ operator ∈ tokenOperators, '-' ∉ operator := by decide
    exact hall token.operator token.operator_known
  rw [pieces]
  split
  · next hgap =>
    rw [List.mem_singleton, eq_comm, text, hgap, List.nil_append, List.append_eq_singleton_iff]
    rintro (⟨-, hhyphen⟩ | ⟨-, hnil⟩)
    · exact hversion hhyphen
    · exact token.version_ne_nil hnil
  · rw [List.mem_pair]
    rintro (hhyphen | hhyphen)
    · exact hoperator (by simp [← hhyphen])
    · exact hversion hhyphen.symm

/-- No alternative of such tokens is a hyphen range. -/
theorem readHyphen_textOfList {tokens : List SpacedToken} (hne : tokens ≠ []) :
    HyphenRange.read? (textOfList tokens) = none := by
  apply HyphenRange.read?_eq_none
  rw [splitBlanks_textOfList hne, List.mem_flatMap]
  rintro ⟨token, -, hpiece⟩
  exact token.hyphen_not_mem_pieces hpiece

/-! ### The text of an alternative -/

theorem bar_not_mem_textOfList (tokens : List SpacedToken) : '|' ∉ textOfList tokens := by
  have htext : ∀ token : SpacedToken, '|' ∉ token.text := by
    intro token
    have hall : ∀ operator ∈ tokenOperators, '|' ∉ operator := by decide
    rw [text, List.mem_append, not_or]
    exact ⟨hall token.operator token.operator_known, token.not_mem_behind (by decide) (by decide)⟩
  cases tokens with
  | nil => exact List.not_mem_nil
  | cons first others =>
    rw [textOfList, List.mem_append, not_or]
    refine ⟨htext first, fun hmem => ?_⟩
    obtain ⟨token, -, hbar⟩ := List.mem_flatMap.mp hmem
    rcases List.mem_append.mp hbar with hfront | hbar
    · exact not_mem_of_class token.front_blank (by decide) hfront
    · exact htext token hbar

/-- An alternative ends in the version of its last token. -/
theorem textOfList_eq_append {tokens : List SpacedToken} (hne : tokens ≠ []) :
    ∃ front, ∃ last : SpacedToken, textOfList tokens = front ++ last.version := by
  obtain ⟨first, others, rfl⟩ := List.exists_cons_of_ne_nil hne
  rcases List.eq_nil_or_concat others with rfl | ⟨between, last, rfl⟩
  · exact ⟨first.operator ++ first.gap, first, by simp [textOfList, text]⟩
  · refine
      ⟨first.text ++ (laterText between ++ (last.front ++ (last.operator ++ last.gap))), last, ?_⟩
    simp [textOfList, laterText, text]

theorem head?_text_solid (token : SpacedToken) : ∀ c ∈ token.text.head?, isBlank c = false := by
  intro c hc
  by_cases hoperator : token.operator = []
  · exact text_solid (token.gap_eq_nil hoperator) c (List.mem_of_mem_head? hc)
  · rw [text, List.head?_append_of_ne_nil _ hoperator] at hc
    exact token.operator_solid c (List.mem_of_mem_head? hc)

theorem trim_textOfList (tokens : List SpacedToken) :
    trim (textOfList tokens) = textOfList tokens := by
  by_cases hne : tokens = []
  · subst hne
    rfl
  · apply trim_eq_self
    · obtain ⟨first, others, rfl⟩ := List.exists_cons_of_ne_nil hne
      rw [textOfList, List.head?_append_of_ne_nil _ first.text_ne_nil]
      exact first.head?_text_solid
    · obtain ⟨front, last, htext⟩ := textOfList_eq_append hne
      rw [htext, List.getLast?_append_of_ne_nil _ last.version_ne_nil]
      exact fun c hc => last.version_solid c (List.mem_of_getLast? hc)

/-! ### Closed tokens -/

theorem closed_eq_self {token : SpacedToken} (hgap : token.gap = []) : token.closed = token := by
  cases token
  cases hgap
  rfl

@[simp] theorem closedBehind_closed (isOpen : Bool) (token : SpacedToken) :
    token.closed.closedBehind isOpen = token.closed := by
  rw [closedBehind, closed_closed, ite_self]

/-- Tokens without gaps stay as they are. -/
theorem allClosed_map_closed (isOpen : Bool) (tokens : List SpacedToken) :
    allClosed isOpen (tokens.map closed) = tokens.map closed := by
  induction tokens generalizing isOpen with
  | nil => rfl
  | cons token tokens ih => rw [List.map_cons, allClosed, closedBehind_closed, ih]

theorem flatMap_pieces_closed (tokens : List SpacedToken) :
    (tokens.map closed).flatMap pieces = tokens.map fun token => token.closed.text := by
  induction tokens with
  | nil => rfl
  | cons token tokens ih =>
    rw [List.map_cons, List.flatMap_cons, ih, pieces_closed, List.map_cons, text_closed]
    rfl

/-- An equals sign in front of a version does not count for what it stands for. -/
theorem readShorthand_equals (token : SpacedToken) :
    Shorthand.read? ('=' :: token.version) = Shorthand.read? token.version := by
  have hbehind : ∀ mark, Partial.isLead mark = false → Partial.isBodyChar mark = false →
      ∀ rest, token.version ≠ mark :: rest := fun mark hlead hbody rest hversion =>
    token.not_mem_version hlead hbody (by simp [hversion])
  have hcompared : Shorthand.read? token.version = Shorthand.readCompared? token.version := by
    unfold Shorthand.read?
    split
    · next rest hversion => exact absurd hversion (hbehind '^' (by decide) (by decide) rest)
    · next rest hversion => exact absurd hversion (hbehind '~' (by decide) (by decide) _)
    · next rest _ hversion => exact absurd hversion (hbehind '~' (by decide) (by decide) rest)
    · rfl
  rw [hcompared]
  change Shorthand.readCompared? ('=' :: token.version) = _
  by_cases hequals : ∃ rest, token.version = '=' :: rest
  · obtain ⟨rest, hversion⟩ := hequals
    have hlead : ∀ c ∈ ['='], Partial.isLead c = true := by simp [Partial.isLead]
    have hread : Partial.read? ('=' :: rest) = Partial.read? rest :=
      Partial.read?_append_lead hlead rest
    simp [hversion, Shorthand.readCompared?, spanSign, hread]
  · obtain ⟨c, rest, hversion⟩ := List.exists_cons_of_ne_nil token.version_ne_nil
    have hsign : Operator.isSignChar c = false := by
      rw [Operator.isSignChar_eq_false_iff]
      refine ⟨?_, ?_, ?_⟩
      · rintro rfl
        exact hbehind '<' (by decide) (by decide) rest hversion
      · rintro rfl
        exact hbehind '>' (by decide) (by decide) rest hversion
      · rintro rfl
        exact hequals ⟨rest, hversion⟩
    rw [hversion, Shorthand.readCompared?, Shorthand.readCompared?,
      Spacing.spanSign_of_head hsign]
    rfl

end SpacedToken

end SemanticVersions
