import SemanticVersions.Grammar.Table
import SemanticVersions.Proofs.Grammar.Language
import SemanticVersions.Proofs.Range.Partial

/-!
# The texts of versions and partial versions

A pattern without anchors describes the same texts wherever they stand, and these are put
together as the pattern is.  So each pattern of the table, up to those of versions and
partial versions, describes exactly the texts that are read as what it is named for.
-/

namespace SemanticVersions.Grammar

open Fields Pattern

/-! ### Character classes -/

theorem ClassItem.holds_range {low high c : Char} :
    (ClassItem.range low high).holds c = true ↔ low.toNat ≤ c.toNat ∧ c.toNat ≤ high.toNat := by
  rw [ClassItem.holds, Bool.and_eq_true, decide_eq_true_eq, decide_eq_true_eq, Char.le_def,
    Char.le_def, UInt32.le_iff_toNat_le, UInt32.le_iff_toNat_le]
  exact Iff.rfl

theorem ClassItem.holds_one {c d : Char} :
    (ClassItem.one d).holds c = true ↔ c.toNat = d.toNat := by
  rw [ClassItem.holds, beq_iff_eq, Char.toNat_inj]

namespace CharClass

theorem holds_oneOf_cons {item : ClassItem} {items : List ClassItem} {c : Char} :
    (oneOf (item :: items)).holds c = true ↔
      item.holds c = true ∨ (oneOf items).holds c = true := by
  rw [holds, List.any_cons, Bool.or_eq_true]
  exact Iff.rfl

theorem holds_oneOf_nil {c : Char} : (oneOf []).holds c = true ↔ False := by
  rw [holds, List.any_nil, iff_false]
  exact Bool.false_ne_true

theorem holds_digit {c : Char} : digit.holds c = true ↔ c.isDigit = true := by
  simp only [digit, holds_oneOf_cons, holds_oneOf_nil, ClassItem.holds_range, or_false,
    isDigit_iff_range]
  exact Iff.rfl

theorem holds_positiveDigit {c : Char} :
    positiveDigit.holds c = true ↔ c.isDigit = true ∧ c ≠ '0' := by
  have hzero : c = '0' ↔ c.toNat = 48 := Char.toNat_inj.symm
  simp only [positiveDigit, holds_oneOf_cons, holds_oneOf_nil, ClassItem.holds_range, or_false,
    isDigit_iff_range, Char.reduceToNat, ne_eq, hzero]
  omega

theorem holds_letter {c : Char} :
    letter.holds c = true ↔ isIdentifierChar c = true ∧ c.isDigit = false := by
  rw [Bool.eq_false_iff, Ne, isDigit_iff_range, isIdentifierChar_iff_range]
  simp only [letter, holds_oneOf_cons, holds_oneOf_nil, ClassItem.holds_range,
    ClassItem.holds_one, Char.reduceToNat, or_false]
  omega

theorem holds_word {c : Char} : word.holds c = true ↔ isIdentifierChar c = true := by
  rw [isIdentifierChar_iff_range]
  simp only [word, holds_oneOf_cons, holds_oneOf_nil, ClassItem.holds_range,
    ClassItem.holds_one, Char.reduceToNat, or_false]
  omega

theorem holds_buildWord {c : Char} : buildWord.holds c = true ↔ isIdentifierChar c = true := by
  rw [isIdentifierChar_iff_range]
  simp only [buildWord, holds_oneOf_cons, holds_oneOf_nil, ClassItem.holds_range,
    ClassItem.holds_one, Char.reduceToNat, or_false]
  omega

theorem holds_lead (c : Char) : lead.holds c = Partial.isLead c := by
  simp [lead, holds, ClassItem.holds, Partial.isLead, Bool.or_assoc]

end CharClass

/-! ### Kinds of texts -/

/-- Whether a pattern describes exactly the texts of a kind, wherever they stand. -/
def Describes (pattern : Pattern) (kind : Text → Prop) : Prop :=
  ∀ left matched right, pattern.Fits left matched right ↔ kind matched

namespace Describes

variable {first second inner : Pattern} {kind firstKind secondKind : Text → Prop}

theorem congr {other : Text → Prop} (hinner : Describes inner kind)
    (hkinds : ∀ text, kind text ↔ other text) : Describes inner other :=
  fun left matched right => (hinner left matched right).trans (hkinds matched)

theorem mark (c : Char) : Describes (Pattern.mark c) fun text => text = [c] := by
  intro left matched right
  constructor
  · rintro ⟨d, hd, rfl⟩
    rw [eq_of_beq hd]
  · rintro rfl
    exact ⟨c, beq_self_eq_true c, rfl⟩

theorem one (chars : CharClass) :
    Describes (Pattern.one chars) fun text => ∃ c, chars.holds c = true ∧ text = [c] :=
  fun _ _ _ => Iff.rfl

theorem many (chars : CharClass) :
    Describes (Pattern.many chars) fun text => ∀ c ∈ text, chars.holds c = true :=
  fun _ _ _ => Iff.rfl

theorem several (chars : CharClass) :
    Describes (Pattern.several chars) fun text =>
      text ≠ [] ∧ ∀ c ∈ text, chars.holds c = true :=
  fun _ _ _ => Iff.rfl

/-- One pattern behind another describes the texts of both kinds put together. -/
theorem append (hfirst : Describes first firstKind) (hsecond : Describes second secondKind) :
    Describes (first ++ second) fun text =>
      ∃ front back, text = front ++ back ∧ firstKind front ∧ secondKind back := by
  intro left matched right
  change (∃ front back, matched = front ++ back ∧ first.Fits left front (back ++ right) ∧
    second.Fits (left ++ front) back right) ↔ _
  simp only [hfirst _ _ _, hsecond _ _ _]

/-- A choice of patterns describes the texts of either kind. -/
theorem orElse (hfirst : Describes first firstKind) (hsecond : Describes second secondKind) :
    Describes (first <|> second) fun text => firstKind text ∨ secondKind text :=
  fun left matched right => or_congr (hfirst left matched right) (hsecond left matched right)

theorem optional (hinner : Describes inner kind) :
    Describes (Pattern.optional inner) fun text => text = [] ∨ kind text :=
  fun left matched right => or_congr Iff.rfl (hinner left matched right)

theorem group (hinner : Describes inner kind) : Describes (Pattern.group inner) kind :=
  hinner

theorem capture (hinner : Describes inner kind) : Describes (Pattern.capture inner) kind :=
  hinner

/-- A repeated group with a mark describes any number of texts, each behind the mark. -/
theorem repeatedBehind (hinner : Describes inner kind) (c : Char) :
    Describes (repeated (Pattern.group (Pattern.mark c ++ inner))) fun text =>
      ∃ parts : List Text, text = parts.flatMap (c :: ·) ∧ ∀ part ∈ parts, kind part := by
  have hturn := ((mark c).append hinner).group
  intro left matched right
  constructor
  · intro hrepeats
    change Repeats _ left matched right at hrepeats
    induction hrepeats with
    | none left right => exact ⟨[], rfl, by simp⟩
    | more hfirst _ ih =>
      obtain ⟨_, part, rfl, rfl, hpart⟩ := (hturn _ _ _).mp hfirst
      obtain ⟨parts, rfl, hparts⟩ := ih
      exact ⟨part :: parts, rfl, List.forall_mem_cons.mpr ⟨hpart, hparts⟩⟩
  · rintro ⟨parts, rfl, hparts⟩
    change Repeats _ left _ right
    induction parts generalizing left with
    | nil => exact .none left right
    | cons part parts ih =>
      obtain ⟨hpart, hparts⟩ := List.forall_mem_cons.mp hparts
      exact .more ((hturn _ _ _).mpr ⟨[c], part, rfl, rfl, hpart⟩) (ih _ hparts)

/-- The dotted pattern describes one or more texts with points between them. -/
theorem dotted (hinner : Describes inner kind) :
    Describes (Grammar.dotted inner) fun text =>
      ∃ parts, parts ≠ [] ∧ text = joinWith ['.'] parts ∧ ∀ part ∈ parts, kind part := by
  refine (hinner.append (hinner.repeatedBehind '.')).congr fun text => ?_
  constructor
  · rintro ⟨first, _, rfl, hfirst, others, rfl, hothers⟩
    exact ⟨first :: others, by simp, (joinWith_cons_eq_append '.' first others).symm,
      List.forall_mem_cons.mpr ⟨hfirst, hothers⟩⟩
  · rintro ⟨parts, hne, rfl, hparts⟩
    obtain ⟨first, others, rfl⟩ := List.exists_cons_of_ne_nil hne
    obtain ⟨hfirst, hothers⟩ := List.forall_mem_cons.mp hparts
    exact ⟨first, _, joinWith_cons_eq_append '.' first others, hfirst, others, rfl, hothers⟩

/-- Parts behind a mark that may be left out as a whole. -/
theorem optionalBehind (hinner : Describes inner kind) (c : Char) :
    Describes (Pattern.optional (Pattern.group
        (Pattern.mark c ++ Pattern.capture (Grammar.dotted inner)))) fun text =>
      ∃ parts, text = Version.markedText c parts ∧ ∀ part ∈ parts, kind part := by
  refine (((mark c).append hinner.dotted.capture).group.optional).congr fun text => ?_
  constructor
  · rintro (rfl | ⟨_, _, rfl, rfl, parts, hne, rfl, hparts⟩)
    · exact ⟨[], rfl, by simp⟩
    · refine ⟨parts, ?_, hparts⟩
      rw [Version.markedText, if_neg (by simpa using hne)]
      rfl
  · rintro ⟨parts, rfl, hparts⟩
    cases parts with
    | nil => exact .inl rfl
    | cons first others =>
      exact .inr ⟨[c], _, rfl, rfl, first :: others, by simp, rfl, hparts⟩

theorem triple (hinner : Describes inner kind) :
    Describes (Grammar.triple inner) fun text =>
      ∃ parts, parts.length = 3 ∧ text = joinWith ['.'] parts ∧ ∀ part ∈ parts, kind part := by
  have hpart := hinner.capture
  refine ((((hpart.append (mark '.')).append hpart).append (mark '.')).append hpart).congr
    fun text => ?_
  constructor
  · rintro ⟨_, third, rfl, ⟨_, _, rfl, ⟨_, second, rfl, ⟨first, _, rfl, hfirst, rfl⟩, hsecond⟩,
      rfl⟩, hthird⟩
    refine ⟨[first, second, third], rfl, by simp, ?_⟩
    simp [hfirst, hsecond, hthird]
  · rintro ⟨parts, hlength, rfl, hparts⟩
    match parts, hlength with
    | [first, second, third], _ =>
      exact ⟨first ++ ['.'] ++ second ++ ['.'], third, by simp,
        ⟨first ++ ['.'] ++ second, ['.'], rfl, ⟨first ++ ['.'], second, rfl,
          ⟨first, ['.'], rfl, hparts first (by simp), rfl⟩, hparts second (by simp)⟩, rfl⟩,
        hparts third (by simp)⟩

end Describes

/-! ### Versions -/

theorem describes_numeric : Describes numeric fun text => isPlainNumeral text = true := by
  refine ((Describes.mark '0').orElse ((Describes.one _).append (Describes.many _))).congr
    fun text => ?_
  rw [isPlainNumeral_iff]
  refine or_congr Iff.rfl ⟨?_, ?_⟩
  · rintro ⟨_, digits, rfl, ⟨c, hc, rfl⟩, hdigits⟩
    obtain ⟨hdigit, hzero⟩ := CharClass.holds_positiveDigit.mp hc
    have hrest := fun d hd => CharClass.holds_digit.mp (hdigits d hd)
    exact ⟨by simp, List.forall_mem_cons.mpr ⟨hdigit, hrest⟩, by simpa using hzero⟩
  · rintro ⟨hne, hdigits, hhead⟩
    obtain ⟨c, digits, rfl⟩ := List.exists_cons_of_ne_nil hne
    obtain ⟨hdigit, hrest⟩ := List.forall_mem_cons.mp hdigits
    have hzero : c ≠ '0' := by simpa using hhead
    exact ⟨[c], digits, rfl, ⟨c, CharClass.holds_positiveDigit.mpr ⟨hdigit, hzero⟩, rfl⟩,
      fun d hd => CharClass.holds_digit.mpr (hrest d hd)⟩

/-- The first character that is not a digit cuts a word in two. -/
theorem describes_nonNumeric :
    Describes nonNumeric fun text =>
      (∀ c ∈ text, isIdentifierChar c = true) ∧ ∃ c ∈ text, c.isDigit = false := by
  refine (((Describes.many _).append (Describes.one _)).append (Describes.many _)).congr
    fun text => ?_
  constructor
  · rintro ⟨_, back, rfl, ⟨front, _, rfl, hfront, c, hc, rfl⟩, hback⟩
    obtain ⟨hchar, hdigit⟩ := CharClass.holds_letter.mp hc
    refine ⟨?_, c, by simp, hdigit⟩
    intro d hd
    simp only [List.append_assoc, List.mem_append, List.mem_singleton] at hd
    rcases hd with hd | rfl | hd
    · exact isIdentifierChar_of_isDigit (CharClass.holds_digit.mp (hfront d hd))
    · exact hchar
    · exact CharClass.holds_word.mp (hback d hd)
  · rintro ⟨hchars, c, hc, hdigit⟩
    have hsplit : text.takeWhile Char.isDigit ++ text.dropWhile Char.isDigit = text :=
      List.takeWhile_append_dropWhile
    have hne : text.dropWhile Char.isDigit ≠ [] := fun hnil => by
      have hall := List.dropWhile_eq_nil_iff.mp hnil c hc
      rw [hdigit] at hall
      cases hall
    obtain ⟨d, back, hback⟩ := List.exists_cons_of_ne_nil hne
    have hd : d.isDigit = false := by
      have hhead := List.head?_dropWhile_not Char.isDigit text
      simpa [hback] using hhead
    rw [← hsplit, hback] at hchars ⊢
    refine ⟨text.takeWhile Char.isDigit ++ [d], back, by simp, ⟨_, [d], rfl, ?_, d, ?_, rfl⟩, ?_⟩
    · exact fun e he => CharClass.holds_digit.mpr (List.mem_takeWhile_imp he)
    · exact CharClass.holds_letter.mpr ⟨hchars d (by simp), hd⟩
    · exact fun e he => CharClass.holds_word.mpr (hchars e (by simp [he]))

theorem describes_prereleaseIdentifier :
    Describes prereleaseIdentifier fun text => isPrereleaseField text = true := by
  refine (describes_numeric.orElse describes_nonNumeric).group.congr fun text => ?_
  rw [isPrereleaseField, Bool.or_eq_true, Bool.and_eq_true, Bool.and_eq_true, List.all_eq_true,
    Bool.not_eq_true', Bool.not_eq_true', List.all_eq_false, List.isEmpty_eq_false_iff]
  refine or_congr Iff.rfl ⟨?_, ?_⟩
  · rintro ⟨hchars, c, hc, hdigit⟩
    exact ⟨⟨List.ne_nil_of_mem hc, hchars⟩, c, hc, by simp [hdigit]⟩
  · rintro ⟨⟨_, hchars⟩, c, hc, hdigit⟩
    exact ⟨hchars, c, hc, by simpa using hdigit⟩

theorem describes_buildIdentifier :
    Describes buildIdentifier fun text => isBuildField text = true := by
  refine (Describes.several _).congr fun text => ?_
  simp only [isBuildField, Bool.and_eq_true, Bool.not_eq_true', List.isEmpty_eq_false_iff,
    List.all_eq_true, CharClass.holds_buildWord]

/-- The prerelease pattern describes identifiers behind a hyphen, if there are any. -/
theorem describes_prerelease :
    Describes (optional prerelease) fun text =>
      ∃ parts, text = Version.markedText '-' parts ∧
        ∀ part ∈ parts, isPrereleaseField part = true :=
  describes_prereleaseIdentifier.optionalBehind '-'

/-- The build pattern describes texts behind a plus sign, if there are any. -/
theorem describes_build :
    Describes (optional build) fun text =>
      ∃ parts, text = Version.markedText '+' parts ∧ ∀ part ∈ parts, isBuildField part = true :=
  describes_buildIdentifier.optionalBehind '+'

/-- The pattern of versions describes the texts that have the form of a version. -/
theorem describes_fullPlain : Describes fullPlain fun text => Version.hasForm text = true := by
  have hrelease : Describes mainVersion _ := describes_numeric.triple
  refine ((((Describes.mark 'v').optional.append hrelease).append describes_prerelease).append
    describes_build).congr fun text => ?_
  simp only [Version.hasForm_iff, Version.isVersion_ofText_iff]
  constructor
  · rintro ⟨_, _, rfl, ⟨_, _, rfl, ⟨lead, _, rfl, hlead, release, hlength, rfl, hplain⟩, suffix,
      rfl, hsuffix⟩, parts, rfl, hparts⟩
    exact ⟨lead, _, hlead, by simp only [List.append_assoc], release, suffix, parts, rfl, hlength,
      hplain, hsuffix, hparts⟩
  · rintro ⟨lead, _, hlead, rfl, release, suffix, parts, rfl, hlength, hplain, hsuffix, hparts⟩
    exact ⟨_, _, by simp only [List.append_assoc], ⟨_, _, rfl, ⟨lead, _, rfl, hlead, release,
      hlength, rfl, hplain⟩, suffix, rfl, hsuffix⟩, parts, rfl, hparts⟩

/-! ### Partial versions -/

theorem describes_wildIdentifier :
    Describes wildIdentifier fun text => ∃ component, Component.read? text = some component := by
  refine (describes_numeric.orElse ((Describes.mark 'x').orElse
    ((Describes.mark 'X').orElse (Describes.mark '*')))).congr fun text => ?_
  constructor
  · rintro (hplain | hwildcard)
    · exact Component.exists_read? (.inr (.inr (.inr hplain)))
    · rcases hwildcard with hx | hX | hstar
      · exact Component.exists_read? (.inl hx)
      · exact Component.exists_read? (.inr (.inl hX))
      · exact Component.exists_read? (.inr (.inr (.inl hstar)))
  · rintro ⟨component, hcomponent⟩
    rcases Component.read?_eq_some hcomponent with ⟨_, hwildcard⟩ | hplain
    · exact .inr hwildcard
    · exact .inl hplain

/-- A point and a third component, with the prerelease and the build behind it. -/
def IsPatchPart (text : Text) : Prop :=
  ∃ third suffix parts,
    text = '.' :: third ++ Version.markedText '-' suffix ++ Version.markedText '+' parts ∧
      (∃ component, Component.read? third = some component) ∧
        (∀ part ∈ suffix, isPrereleaseField part = true) ∧ ∀ part ∈ parts, isBuildField part = true

/-- A point and a second component, with all that may stand behind it. -/
def IsMinorPart (text : Text) : Prop :=
  ∃ second rest, text = '.' :: second ++ rest ∧
    (∃ component, Component.read? second = some component) ∧ (rest = [] ∨ IsPatchPart rest)

theorem describes_patchPart :
    Describes (group (mark '.' ++ capture wildIdentifier ++ optional (group prerelease) ++
      optional build)) IsPatchPart := by
  have hsuffix : Describes (optional (group prerelease)) _ := describes_prerelease
  refine ((((Describes.mark '.').append describes_wildIdentifier.capture).append hsuffix).append
    describes_build).group.congr fun text => ?_
  constructor
  · rintro ⟨_, _, rfl, ⟨_, _, rfl, ⟨_, third, rfl, rfl, hthird⟩, suffix, rfl, hsuffix⟩, parts, rfl,
      hparts⟩
    exact ⟨third, suffix, parts, rfl, hthird, hsuffix, hparts⟩
  · rintro ⟨third, suffix, parts, rfl, hthird, hsuffix, hparts⟩
    exact ⟨_, _, rfl, ⟨_, _, rfl, ⟨['.'], third, rfl, rfl, hthird⟩, suffix, rfl, hsuffix⟩, parts,
      rfl, hparts⟩

/-- The group behind a first component describes a second one with all that may follow. -/
theorem describes_minorPart :
    Describes (group (mark '.' ++ capture wildIdentifier ++ optional (group (mark '.' ++
      capture wildIdentifier ++ optional (group prerelease) ++ optional build)))) IsMinorPart := by
  refine (((Describes.mark '.').append describes_wildIdentifier.capture).append
    describes_patchPart.optional).group.congr fun text => ?_
  constructor
  · rintro ⟨_, rest, rfl, ⟨_, second, rfl, rfl, hsecond⟩, hrest⟩
    exact ⟨second, rest, rfl, hsecond, hrest⟩
  · rintro ⟨second, rest, rfl, hsecond, hrest⟩
    exact ⟨_, rest, rfl, ⟨['.'], second, rfl, rfl, hsecond⟩, hrest⟩

/-- A lead and a component, with all that may stand behind it, are the parts of a partial
version. -/
theorem hasParts_of_isMinorPart {lead first rest : Text}
    (hlead : ∀ c ∈ lead, Partial.isLead c = true)
    (hfirst : ∃ component, Component.read? first = some component)
    (hrest : rest = [] ∨ IsMinorPart rest) :
    ∃ release suffix build, Partial.HasParts (lead ++ (first ++ rest)) release suffix build := by
  have hbody : (lead ++ (first ++ rest)).dropWhile Partial.isLead = first ++ rest := by
    obtain ⟨component, hread⟩ := hfirst
    exact Partial.dropWhile_isLead hlead hread rest
  rcases hrest with rfl | ⟨second, rest, rfl, hsecond, hrest⟩
  · refine ⟨[first], [], [], hbody.trans ?_, ?_, by simp, by simp, by simp, by simp, by simp⟩
    · simp [Version.markedText]
    · simpa using hfirst
  rcases hrest with rfl | ⟨third, suffix, parts, rfl, hthird, hsuffix, hparts⟩
  · refine ⟨[first, second], [], [], hbody.trans ?_, ?_, by simp, by simp, by simp, by simp,
      by simp⟩
    · simp [Version.markedText]
    · simpa using ⟨hfirst, hsecond⟩
  · refine ⟨[first, second, third], suffix, parts, hbody.trans ?_, ?_, by simp, by simp, by simp,
      hsuffix, hparts⟩
    · simp
    · simpa using ⟨hfirst, hsecond, hthird⟩

theorem isMinorPart_of_hasParts {text : Text} {release suffix build : List Text}
    (hparts : Partial.HasParts text release suffix build) :
    ∃ lead first rest, text = lead ++ first ++ rest ∧ (∀ c ∈ lead, Partial.isLead c = true) ∧
      (∃ component, Component.read? first = some component) ∧ (rest = [] ∨ IsMinorPart rest) := by
  have hsplit : text.takeWhile Partial.isLead ++ text.dropWhile Partial.isLead = text :=
    List.takeWhile_append_dropWhile
  have hlead : ∀ c ∈ text.takeWhile Partial.isLead, Partial.isLead c = true :=
    fun c hc => List.mem_takeWhile_imp hc
  have hpart := hparts.component
  rw [hparts.text_eq] at hsplit
  match release, hparts.release_pos, hparts.release_le, hparts.suffix_full with
  | [first], _, _, hsuffix =>
    obtain ⟨rfl, rfl⟩ := hsuffix (by simp)
    refine ⟨_, first, [], ?_, hlead, hpart first (by simp), .inl rfl⟩
    simpa [Version.markedText] using hsplit.symm
  | [first, second], _, _, hsuffix =>
    obtain ⟨rfl, rfl⟩ := hsuffix (by simp)
    refine ⟨_, first, '.' :: second, ?_, hlead, hpart first (by simp), .inr ?_⟩
    · simpa [Version.markedText] using hsplit.symm
    · exact ⟨second, [], by simp, hpart second (by simp), .inl rfl⟩
  | [first, second, third], _, _, _ =>
    refine ⟨_, first, '.' :: second ++ ('.' :: third ++ Version.markedText '-' suffix ++
      Version.markedText '+' build), ?_, hlead, hpart first (by simp), .inr ?_⟩
    · simpa using hsplit.symm
    · exact ⟨second, _, rfl, hpart second (by simp), .inr ⟨third, suffix, build, rfl,
        hpart third (by simp), hparts.prerelease_field, hparts.build_field⟩⟩

/-- The pattern of partial versions describes the texts that read as such. -/
theorem describes_wildPlain :
    Describes wildPlain fun text => ∃ version, Partial.read? text = some version := by
  refine (((Describes.many .lead).append describes_wildIdentifier.capture).append
    describes_minorPart.optional).congr fun text => ?_
  simp only [Partial.exists_read?_iff, CharClass.holds_lead]
  constructor
  · rintro ⟨_, rest, rfl, ⟨lead, first, rfl, hlead, hfirst⟩, hrest⟩
    rw [List.append_assoc]
    exact hasParts_of_isMinorPart hlead hfirst hrest
  · rintro ⟨release, suffix, build, hparts⟩
    obtain ⟨lead, first, rest, rfl, hlead, hfirst, hrest⟩ := isMinorPart_of_hasParts hparts
    exact ⟨_, rest, rfl, ⟨lead, first, rfl, hlead, hfirst⟩, hrest⟩

end SemanticVersions.Grammar
