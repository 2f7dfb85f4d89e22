import SemanticVersions.Proofs.Text.Numeral
import SemanticVersions.Proofs.Text.Pieces
import SemanticVersions.Version.Reader

/-!
# The text format of versions

The full text of a well-formed version cuts into the fields that it was put
together from, and the fields of any text that reads as a version put together
to that text.  Reading therefore accepts exactly the full texts of well-formed
versions, apart from the blanks around them and one `v` in front.
-/

namespace SemanticVersions

open Fields

/-! ### Identifiers -/

namespace Fields

theorem isIdentifierChar_of_mem_field {text : Text} (hfield : isPrereleaseField text = true)
    {c : Char} (hc : c ∈ text) : isIdentifierChar c = true := by
  rw [isPrereleaseField, Bool.or_eq_true] at hfield
  rcases hfield with hplain | hword
  · exact isIdentifierChar_of_isDigit
      ((isNumeral_iff.mp (isNumeral_of_isPlainNumeral hplain)).2 c hc)
  · rw [Bool.and_eq_true, Bool.and_eq_true, List.all_eq_true] at hword
    exact hword.1.2 c hc

theorem ne_nil_of_isPrereleaseField {text : Text} (hfield : isPrereleaseField text = true) :
    text ≠ [] := by
  rintro rfl
  cases hfield

theorem isIdentifierChar_of_mem_buildField {text : Text} (hfield : isBuildField text = true)
    {c : Char} (hc : c ∈ text) : isIdentifierChar c = true := by
  rw [isBuildField, Bool.and_eq_true, List.all_eq_true] at hfield
  exact hfield.2 c hc

/-! No mark between fields stands in a field, but hyphens do behind the release. -/

theorem not_mem_of_isPlainNumeral {text : Text} (hplain : isPlainNumeral text = true) :
    '.' ∉ text ∧ '-' ∉ text ∧ '+' ∉ text := by
  have hdigits := (isNumeral_iff.mp (isNumeral_of_isPlainNumeral hplain)).2
  exact ⟨not_mem_of_class hdigits (by decide), not_mem_of_class hdigits (by decide),
    not_mem_of_class hdigits (by decide)⟩

theorem not_mem_of_isPrereleaseField {text : Text} (hfield : isPrereleaseField text = true) :
    '.' ∉ text ∧ '+' ∉ text := by
  have hchars := fun c => isIdentifierChar_of_mem_field hfield (c := c)
  exact ⟨not_mem_of_class hchars (by decide), not_mem_of_class hchars (by decide)⟩

theorem not_mem_of_isBuildField {text : Text} (hfield : isBuildField text = true) :
    '.' ∉ text := by
  have hchars := fun c => isIdentifierChar_of_mem_buildField hfield (c := c)
  exact not_mem_of_class hchars (by decide)

end Fields

namespace Identifier

instance : DecidablePred WellFormed
  | numeric _ => inferInstanceAs (Decidable True)
  | textual text =>
    inferInstanceAs (Decidable (text ≠ [] ∧ text.all isIdentifierChar = true ∧
      text.all Char.isDigit = false))

theorem isIdentifierChar_of_mem_text {id : Identifier} (hid : id.WellFormed) {c : Char}
    (hmem : c ∈ id.text) : isIdentifierChar c = true := by
  cases id with
  | numeric n => exact isIdentifierChar_of_isDigit (isDigit_of_mem_decimal hmem)
  | textual text => exact List.all_eq_true.mp hid.2.1 c hmem

theorem isPrereleaseField_text {id : Identifier} (hid : id.WellFormed) :
    isPrereleaseField id.text = true := by
  cases id with
  | numeric n => simp [isPrereleaseField, text, isPlainNumeral_decimal]
  | textual content =>
    obtain ⟨hne, hchars, hdigits⟩ := hid
    simp [isPrereleaseField, text, hne, hchars, hdigits]

/-- A well-formed identifier is read back from its text. -/
theorem read?_text {id : Identifier} (hid : id.WellFormed) : read? id.text = some id := by
  cases id with
  | numeric n => simp [read?, text, isNumeral_decimal]
  | textual content =>
    have hnumeral : isNumeral content = false := by
      rw [isNumeral, hid.2.2, Bool.and_false]
    simp [read?, text, hnumeral]

/-- A field that may stand in a prerelease is the text of the identifier that it
reads as. -/
theorem text_of_read? {field : Text} {id : Identifier}
    (hfield : isPrereleaseField field = true) (hread : read? field = some id) :
    id.WellFormed ∧ id.text = field := by
  by_cases hnumeral : isNumeral field = true
  · have hdigits : field.all Char.isDigit = true :=
      List.all_eq_true.mpr (isNumeral_iff.mp hnumeral).2
    have hplain : isPlainNumeral field = true := by
      simpa [isPrereleaseField, hdigits] using hfield
    rw [read?, if_pos hnumeral, Option.map_eq_some_iff] at hread
    obtain ⟨word, hword, rfl⟩ := hread
    exact ⟨trivial, decimal_of_readWord? hplain hword⟩
  · rw [read?, if_neg hnumeral, Option.some.injEq] at hread
    subst hread
    have hplain : isPlainNumeral field = false :=
      Bool.eq_false_iff.mpr fun hplain => hnumeral (isNumeral_of_isPlainNumeral hplain)
    simp only [isPrereleaseField, hplain, Bool.false_or, Bool.and_eq_true,
      Bool.not_eq_true', List.isEmpty_eq_false_iff] at hfield
    exact ⟨⟨hfield.1.1, hfield.1.2, hfield.2⟩, rfl⟩

theorem mapM_read?_text {ids : List Identifier} (hids : ∀ id ∈ ids, id.WellFormed) :
    (ids.map text).mapM read? = some ids := by
  induction ids with
  | nil => rfl
  | cons id ids ih =>
    rw [List.map_cons, List.mapM_cons, read?_text (hids id (by simp)),
      ih fun other hother => hids other (by simp [hother])]
    rfl

theorem map_text_of_mapM_read? {fields : List Text} {ids : List Identifier}
    (hfields : fields.all isPrereleaseField = true) (hread : fields.mapM read? = some ids) :
    (∀ id ∈ ids, id.WellFormed) ∧ ids.map text = fields := by
  induction fields generalizing ids with
  | nil =>
    obtain rfl : ids = [] := by simpa using hread.symm
    exact ⟨by simp, rfl⟩
  | cons field fields ih =>
    rw [List.all_cons, Bool.and_eq_true] at hfields
    rw [List.mapM_cons] at hread
    obtain ⟨id, hid, hread⟩ := Option.bind_eq_some_iff.mp hread
    obtain ⟨rest, hrest, hread⟩ := Option.bind_eq_some_iff.mp hread
    cases hread
    obtain ⟨hwell, htext⟩ := text_of_read? hfields.1 hid
    obtain ⟨hwells, htexts⟩ := ih hfields.2 hrest
    refine ⟨?_, by rw [List.map_cons, htext, htexts]⟩
    intro other hother
    rcases List.mem_cons.mp hother with rfl | hother
    · exact hwell
    · exact hwells other hother

end Identifier

/-! ### Characters of version texts -/

namespace Version

instance : DecidablePred WellFormed := fun v =>
  inferInstanceAs (Decidable ((∀ id ∈ v.prerelease, id.WellFormed) ∧
    ∀ text ∈ v.build, text ≠ [] ∧ text.all isIdentifierChar = true))

theorem releaseText_eq_joinWith (v : Version) :
    v.releaseText =
      joinWith ['.'] [decimal v.major.toNat, decimal v.minor.toNat, decimal v.patch.toNat] := by
  simp [releaseText]

theorem mem_releaseText {v : Version} {c : Char} (hmem : c ∈ v.releaseText) :
    c = '.' ∨ c.isDigit = true := by
  rw [releaseText_eq_joinWith] at hmem
  rcases mem_joinWith hmem with hpoint | ⟨piece, hpiece, hc⟩
  · exact .inl (List.mem_singleton.mp hpoint)
  · right
    simp only [List.mem_cons, List.not_mem_nil, or_false] at hpiece
    rcases hpiece with rfl | rfl | rfl <;> exact isDigit_of_mem_decimal hc

theorem mem_markedText {c mark : Char} {texts : List Text} (hmem : c ∈ markedText mark texts) :
    c = mark ∨ c = '.' ∨ ∃ text ∈ texts, c ∈ text := by
  unfold markedText at hmem
  split at hmem
  · cases hmem
  · rcases List.mem_cons.mp hmem with hmark | hjoin
    · exact .inl hmark
    · rcases mem_joinWith hjoin with hpoint | htext
      · exact .inr (.inl (List.mem_singleton.mp hpoint))
      · exact .inr (.inr htext)

theorem isVersionChar_of_mem_text {v : Version} (hv : v.WellFormed) {c : Char}
    (hmem : c ∈ v.text) : isVersionChar c = true := by
  rcases List.mem_append.mp hmem with hrelease | hprerelease
  · rcases mem_releaseText hrelease with rfl | hdigit
    · rfl
    · exact isVersionChar_of_isIdentifierChar (isIdentifierChar_of_isDigit hdigit)
  · rcases mem_markedText hprerelease with rfl | rfl | ⟨text, htext, hc⟩
    · rfl
    · rfl
    · obtain ⟨id, hid, rfl⟩ := List.mem_map.mp htext
      exact isVersionChar_of_isIdentifierChar
        (Identifier.isIdentifierChar_of_mem_text (hv.1 id hid) hc)

theorem not_isBlank_of_mem_text {v : Version} (hv : v.WellFormed) :
    ∀ c ∈ v.text, isBlank c = false :=
  fun _ hc => not_isBlank_of_isVersionChar (isVersionChar_of_mem_text hv hc)

theorem not_isBlank_of_mem_fullText {v : Version} (hv : v.WellFormed) :
    ∀ c ∈ v.fullText, isBlank c = false := by
  intro c hmem
  rcases List.mem_append.mp hmem with htext | hbuild
  · exact not_isBlank_of_mem_text hv c htext
  · rcases mem_markedText hbuild with rfl | rfl | ⟨text, htext, hc⟩
    · decide
    · decide
    · exact not_isBlank_of_isIdentifierChar (List.all_eq_true.mp (hv.2 text htext).2 c hc)

/-- A version text begins with a digit. -/
theorem text_eq_cons (v : Version) : ∃ c rest, v.text = c :: rest ∧ c.isDigit = true := by
  obtain ⟨c, rest, hdecimal⟩ := List.exists_cons_of_ne_nil (decimal_ne_nil v.major.toNat)
  have hdigit : c.isDigit = true := by
    apply isDigit_of_mem_decimal (n := v.major.toNat)
    rw [hdecimal]
    exact List.mem_cons_self
  exact ⟨c, _, by rw [text, releaseText, hdecimal]; rfl, hdigit⟩

theorem fullText_eq_cons (v : Version) :
    ∃ c rest, v.fullText = c :: rest ∧ c.isDigit = true := by
  obtain ⟨c, rest, htext, hdigit⟩ := text_eq_cons v
  exact ⟨c, _, by rw [fullText, htext]; rfl, hdigit⟩

@[simp]
theorem text_withBuild (v : Version) (build : List Text) :
    ({ v with build := build } : Version).text = v.text := rfl

theorem WellFormed.withoutBuild {v : Version} (hv : v.WellFormed) :
    ({ v with build := [] } : Version).WellFormed :=
  ⟨hv.1, by simp⟩

theorem fullText_of_build_eq_nil {v : Version} (hbuild : v.build = []) :
    v.fullText = v.text := by
  simp [fullText, hbuild, markedText]

/-! ### Fields of version texts -/

/-- The texts behind a mark, if there are any. -/
def dottedPart (texts : List Text) : Option Text :=
  if texts.isEmpty then none else some (joinWith ['.'] texts)

theorem markedText_eq_markedPart (mark : Char) (texts : List Text) :
    markedText mark texts = markedPart mark (dottedPart texts) := by
  unfold markedText dottedPart
  split <;> rfl

/-- Texts of which none need be given. -/
def given (texts : List Text) : Option (List Text) :=
  if texts.isEmpty then none else some texts

@[simp]
theorem getD_given (texts : List Text) : (given texts).getD [] = texts := by
  cases texts <;> rfl

theorem splitOn_dottedPart {texts : List Text} (htexts : ∀ text ∈ texts, '.' ∉ text) :
    (dottedPart texts).map (·.splitOn '.') = given texts := by
  unfold dottedPart given
  split
  · rfl
  · next hempty =>
    have hne : texts ≠ [] := fun hnil => hempty (List.isEmpty_iff.mpr hnil)
    exact congrArg some (List.splitOn_intercalate '.' htexts hne)

theorem markedText_splitOn (mark : Char) (part : Option Text) :
    markedText mark ((part.map (·.splitOn '.')).getD []) = markedPart mark part := by
  cases part with
  | none => rfl
  | some part =>
    have hjoin : joinWith ['.'] (part.splitOn '.') = part := List.intercalate_splitOn '.'
    simp [markedText, markedPart, hjoin]

theorem isFullTextChar_of_mem_assemble {release prerelease build : List Text}
    (hrelease : ∀ part ∈ release, isPlainNumeral part = true)
    (hprerelease : ∀ part ∈ prerelease, isPrereleaseField part = true)
    (hbuild : ∀ part ∈ build, isBuildField part = true) {c : Char}
    (hc : c ∈ joinWith ['.'] release ++ markedText '-' prerelease ++ markedText '+' build) :
    isFullTextChar c = true := by
  have hidentifier : ∀ d, isIdentifierChar d = true → isFullTextChar d = true := fun d hd =>
    isFullTextChar_of_isVersionChar (isVersionChar_of_isIdentifierChar hd)
  rw [List.mem_append, List.mem_append] at hc
  rcases hc with (hc | hc) | hc
  · rcases mem_joinWith hc with hpoint | ⟨part, hpart, hc⟩
    · rw [List.mem_singleton.mp hpoint]
      rfl
    · have hdigits := (isNumeral_iff.mp (isNumeral_of_isPlainNumeral (hrelease part hpart))).2
      exact hidentifier c (isIdentifierChar_of_isDigit (hdigits c hc))
  · rcases mem_markedText hc with rfl | rfl | ⟨part, hpart, hc⟩
    · rfl
    · rfl
    · exact hidentifier c (isIdentifierChar_of_mem_field (hprerelease part hpart) hc)
  · rcases mem_markedText hc with rfl | rfl | ⟨part, hpart, hc⟩
    · rfl
    · rfl
    · exact hidentifier c (isIdentifierChar_of_mem_buildField (hbuild part hpart) hc)

/-- Parts without the marks between them come back from the cuts of the text that they
are put together to. -/
theorem ofText_assemble {release prerelease build : List Text} (hne : release ≠ [])
    (hrelease : ∀ part ∈ release, '.' ∉ part ∧ '-' ∉ part ∧ '+' ∉ part)
    (hprerelease : ∀ part ∈ prerelease, '.' ∉ part ∧ '+' ∉ part)
    (hbuild : ∀ part ∈ build, '.' ∉ part) :
    Fields.ofText (joinWith ['.'] release ++ markedText '-' prerelease ++ markedText '+' build) =
      { release, prerelease := given prerelease, build := given build } := by
  have hhyphen : '-' ∉ joinWith ['.'] release := fun hmem => by
    rcases mem_joinWith hmem with hpoint | ⟨part, hpart, hc⟩
    · exact absurd hpoint (by decide)
    · exact (hrelease part hpart).2.1 hc
  have hplus : '+' ∉ joinWith ['.'] release ++ markedText '-' prerelease := fun hmem => by
    rcases List.mem_append.mp hmem with hmem | hmem
    · rcases mem_joinWith hmem with hpoint | ⟨part, hpart, hc⟩
      · exact absurd hpoint (by decide)
      · exact (hrelease part hpart).2.2 hc
    · rcases mem_markedText hmem with hmark | hpoint | ⟨part, hpart, hc⟩
      · exact absurd hmark (by decide)
      · exact absurd hpoint (by decide)
      · exact (hprerelease part hpart).2 hc
  rw [markedText_eq_markedPart '+', Fields.ofText, cutAt_markedPart hplus,
    markedText_eq_markedPart '-', cutAt_markedPart hhyphen,
    splitOn_dottedPart fun part hpart => (hprerelease part hpart).1, splitOn_dottedPart hbuild]
  congr 1
  exact List.splitOn_intercalate '.' (fun part hpart => (hrelease part hpart).1) hne

/-- The fields of the full text of a well-formed version are its own parts. -/
theorem ofText_fullText {v : Version} (hv : v.WellFormed) :
    (Fields.ofText v.fullText).release =
        [decimal v.major.toNat, decimal v.minor.toNat, decimal v.patch.toNat] ∧
      (Fields.ofText v.fullText).prerelease.getD [] = v.prerelease.map Identifier.text ∧
        (Fields.ofText v.fullText).build.getD [] = v.build := by
  have hrelease : ∀ part ∈ [decimal v.major.toNat, decimal v.minor.toNat, decimal v.patch.toNat],
      '.' ∉ part ∧ '-' ∉ part ∧ '+' ∉ part := by
    have hdecimal := fun n => not_mem_of_isPlainNumeral (isPlainNumeral_decimal n)
    simp [hdecimal]
  have hprerelease : ∀ part ∈ v.prerelease.map Identifier.text, '.' ∉ part ∧ '+' ∉ part := by
    intro part hpart
    obtain ⟨id, hid, rfl⟩ := List.mem_map.mp hpart
    exact not_mem_of_isPrereleaseField (Identifier.isPrereleaseField_text (hv.1 id hid))
  have hbuild : ∀ part ∈ v.build, '.' ∉ part := fun part hpart =>
    not_mem_of_class (List.all_eq_true.mp (hv.2 part hpart).2) (by decide)
  rw [fullText, text, releaseText_eq_joinWith,
    ofText_assemble (by simp) hrelease hprerelease hbuild]
  exact ⟨rfl, getD_given _, getD_given _⟩

/-- The fields of a text put together are the text. -/
theorem assemble_ofText (text : Text) :
    joinWith ['.'] (Fields.ofText text).release ++
        markedText '-' ((Fields.ofText text).prerelease.getD []) ++
      markedText '+' ((Fields.ofText text).build.getD []) = text := by
  have hrelease : ∀ part : Text, joinWith ['.'] (part.splitOn '.') = part := fun part =>
    List.intercalate_splitOn '.'
  simp only [Fields.ofText, markedText_splitOn, hrelease, cutAt_assemble]

/-- A text cuts into the fields of a version exactly if it is put together from such
fields. -/
theorem isVersion_ofText_iff {text : Text} :
    (Fields.ofText text).isVersion = true ↔
      ∃ release prerelease build,
        text = joinWith ['.'] release ++ markedText '-' prerelease ++ markedText '+' build ∧
          release.length = 3 ∧ (∀ part ∈ release, isPlainNumeral part = true) ∧
            (∀ part ∈ prerelease, isPrereleaseField part = true) ∧
              ∀ part ∈ build, isBuildField part = true := by
  constructor
  · intro hform
    simp only [isVersion, suffixAllowed, Bool.and_eq_true, beq_iff_eq, List.all_eq_true] at hform
    exact ⟨_, _, _, (assemble_ofText text).symm, hform.1.1, hform.1.2, hform.2⟩
  · rintro ⟨release, prerelease, build, rfl, hlength, hplain, hprerelease, hbuild⟩
    have hne : release ≠ [] := List.ne_nil_of_length_pos (by omega)
    rw [ofText_assemble hne (fun part hpart => not_mem_of_isPlainNumeral (hplain part hpart))
      (fun part hpart => not_mem_of_isPrereleaseField (hprerelease part hpart))
      (fun part hpart => not_mem_of_isBuildField (hbuild part hpart))]
    simp only [isVersion, suffixAllowed, getD_given, Bool.and_eq_true, beq_iff_eq, List.all_eq_true]
    exact ⟨⟨hlength, hplain⟩, hprerelease, hbuild⟩

/-- The full text of a prerelease has a character behind its hyphen. -/
theorem fullText_of_prerelease {v : Version} (hv : v.WellFormed) (hsome : v.prerelease ≠ []) :
    ∃ c suffix, joinWith ['.'] (v.prerelease.map Identifier.text) = c :: suffix ∧
      v.fullText = v.releaseText ++ '-' :: c :: (suffix ++ markedText '+' v.build) := by
  have hfields : ∀ text ∈ v.prerelease.map Identifier.text, text ≠ [] := by
    intro text htext
    obtain ⟨id, hid, rfl⟩ := List.mem_map.mp htext
    exact ne_nil_of_isPrereleaseField (Identifier.isPrereleaseField_text (hv.1 id hid))
  have hjoin : joinWith ['.'] (v.prerelease.map Identifier.text) ≠ [] :=
    joinWith_ne_nil hfields (by simpa using hsome)
  obtain ⟨c, suffix, hsuffix⟩ :=
    List.exists_cons_of_ne_nil hjoin
  refine ⟨c, suffix, hsuffix, ?_⟩
  rw [fullText, text, markedText, if_neg (by simpa using hsome), hsuffix]
  simp

/-- A single identifier `0` is the only prerelease with this text. -/
theorem prerelease_eq_zero {v : Version} (hv : v.WellFormed)
    (htext : joinWith ['.'] (v.prerelease.map Identifier.text) = ['0']) :
    v.prerelease = [.numeric 0] := by
  have hne : v.prerelease.map Identifier.text ≠ [] := by
    intro hnil
    rw [hnil] at htext
    cases htext
  have hpoint : ∀ text ∈ v.prerelease.map Identifier.text, '.' ∉ text := by
    intro text htext
    obtain ⟨id, hid, rfl⟩ := List.mem_map.mp htext
    exact not_mem_of_class
      (fun _ hc => Identifier.isIdentifierChar_of_mem_text (hv.1 id hid) hc) (by decide)
  have htexts : v.prerelease.map Identifier.text = [['0']] := by
    rw [← List.splitOn_intercalate '.' hpoint hne]
    exact congrArg (·.splitOn '.') htext
  have hread := Identifier.mapM_read?_text hv.1
  rw [htexts] at hread
  exact (Option.some.inj hread).symm

/-- Fields give a version if there are three numbers that fit and each identifier is read. -/
theorem version?_eq_some_iff {fields : Fields} {v : Version} :
    fields.version? = some v ↔
      ∃ major minor patch, fields.release = [major, minor, patch] ∧
        readWord? major = some v.major ∧ readWord? minor = some v.minor ∧
          readWord? patch = some v.patch ∧
            (fields.prerelease.getD []).mapM Identifier.read? = some v.prerelease ∧
              fields.build.getD [] = v.build := by
  unfold Fields.version?
  constructor
  · intro hread
    split at hread
    · next major minor patch hrelease =>
      obtain ⟨M, hmajor, hread⟩ := Option.bind_eq_some_iff.mp hread
      obtain ⟨m, hminor, hread⟩ := Option.bind_eq_some_iff.mp hread
      obtain ⟨p, hpatch, hread⟩ := Option.bind_eq_some_iff.mp hread
      obtain ⟨ids, hids, hread⟩ := Option.bind_eq_some_iff.mp hread
      cases hread
      exact ⟨major, minor, patch, hrelease, hmajor, hminor, hpatch, hids, rfl⟩
    · cases hread
  · rintro ⟨major, minor, patch, hrelease, hmajor, hminor, hpatch, hids, hbuild⟩
    simp [hrelease, hmajor, hminor, hpatch, hids, hbuild]

/-- Fields are accepted and read as a version exactly if they are those of its
full text. -/
theorem ofText_reads_iff {text : Text} {v : Version} :
    ((Fields.ofText text).isVersion = true ∧ (Fields.ofText text).version? = some v) ↔
      v.WellFormed ∧ text = v.fullText := by
  constructor
  · rintro ⟨hform, hread⟩
    obtain ⟨major, minor, patch, hrelease, hmajor, hminor, hpatch, hids, hbuild⟩ :=
      version?_eq_some_iff.mp hread
    simp only [isVersion, suffixAllowed, hrelease, hbuild, List.all_cons, List.all_nil,
      Bool.and_true, Bool.and_eq_true] at hform
    obtain ⟨⟨_, hplainMajor, hplainMinor, hplainPatch⟩, hprerelease, hbuilds⟩ := hform
    obtain ⟨hwell, htexts⟩ := Identifier.map_text_of_mapM_read? hprerelease hids
    have hwellBuild : ∀ part ∈ v.build, part ≠ [] ∧ part.all isIdentifierChar = true := by
      intro part hpart
      simpa [isBuildField] using List.all_eq_true.mp hbuilds part hpart
    refine ⟨⟨hwell, hwellBuild⟩, ?_⟩
    rw [← assemble_ofText text, hrelease, ← htexts, hbuild, fullText, Version.text,
      releaseText_eq_joinWith, decimal_of_readWord? hplainMajor hmajor,
      decimal_of_readWord? hplainMinor hminor, decimal_of_readWord? hplainPatch hpatch]
  · rintro ⟨hv, rfl⟩
    obtain ⟨hrelease, hprerelease, hbuild⟩ := ofText_fullText hv
    have hids : (v.prerelease.map Identifier.text).all isPrereleaseField = true := by
      rw [List.all_map, List.all_eq_true]
      exact fun id hid => Identifier.isPrereleaseField_text (hv.1 id hid)
    have hparts : v.build.all isBuildField = true := by
      rw [List.all_eq_true]
      intro part hpart
      simpa [isBuildField] using hv.2 part hpart
    constructor
    · simp [isVersion, suffixAllowed, hrelease, hprerelease, hbuild, hids, hparts,
        isPlainNumeral_decimal]
    · rw [version?_eq_some_iff]
      exact ⟨_, _, _, hrelease, readWord?_decimal _, readWord?_decimal _, readWord?_decimal _,
        by rw [hprerelease]; exact Identifier.mapM_read?_text hv.1, hbuild⟩

/-! ### Reading versions -/

theorem fields_of_head?_ne {text : Text} (hhead : text.head? ≠ some 'v') :
    fields text = Fields.ofText text := by
  unfold fields
  split
  · exact absurd rfl hhead
  · rfl

/-- The first number of a version text begins with a digit. -/
theorem eq_cons_of_isVersion {text : Text} (hform : (Fields.ofText text).isVersion = true) :
    ∃ c rest, text = c :: rest ∧ c.isDigit = true := by
  obtain ⟨release, prerelease, build, rfl, hlength, hplain, _, _⟩ := isVersion_ofText_iff.mp hform
  match release with
  | [] => cases hlength
  | major :: others =>
    have hmajor := isNumeral_iff.mp (isNumeral_of_isPlainNumeral (hplain major (by simp)))
    obtain ⟨c, rest, rfl⟩ := List.exists_cons_of_ne_nil hmajor.1
    exact ⟨c, _, by rw [joinWith_cons_char]; rfl, hmajor.2 c (by simp)⟩

/-- A text has the form of a version if it is one behind a `v` or nothing. -/
theorem hasForm_iff {text : Text} :
    hasForm text = true ↔
      ∃ lead body, (lead = [] ∨ lead = ['v']) ∧ text = lead ++ body ∧
        (Fields.ofText body).isVersion = true := by
  constructor
  · intro hform
    unfold hasForm fields at hform
    split at hform
    · next rest => exact ⟨['v'], rest, .inr rfl, rfl, hform⟩
    · exact ⟨[], text, .inl rfl, rfl, hform⟩
  · rintro ⟨lead, body, rfl | rfl, rfl, hform⟩
    · obtain ⟨c, rest, rfl, hdigit⟩ := eq_cons_of_isVersion hform
      have hhead : (c :: rest).head? ≠ some 'v' := by
        simpa using ne_of_class hdigit (by decide)
      rwa [hasForm, fields_of_head?_ne hhead]
    · exact hform

/-- A text with the form of a version begins with a letter or a digit. -/
theorem eq_cons_of_hasForm {text : Text} (hform : hasForm text = true) :
    ∃ c rest, text = c :: rest ∧ isIdentifierChar c = true := by
  obtain ⟨lead, body, rfl | rfl, rfl, hbody⟩ := hasForm_iff.mp hform
  · obtain ⟨c, rest, rfl, hdigit⟩ := eq_cons_of_isVersion hbody
    exact ⟨c, rest, rfl, isIdentifierChar_of_isDigit hdigit⟩
  · exact ⟨'v', body, rfl, by decide⟩

theorem isFullTextChar_of_hasForm {text : Text} (hform : hasForm text = true) {c : Char}
    (hc : c ∈ text) : isFullTextChar c = true := by
  obtain ⟨lead, body, hlead, rfl, hbody⟩ := hasForm_iff.mp hform
  obtain ⟨release, prerelease, build, rfl, _, hrelease, hprerelease, hbuild⟩ :=
    isVersion_ofText_iff.mp hbody
  rcases List.mem_append.mp hc with hc | hc
  · rcases hlead with rfl | rfl
    · cases hc
    · rw [List.mem_singleton.mp hc]
      decide
  · exact isFullTextChar_of_mem_assemble hrelease hprerelease hbuild hc

theorem not_isBlank_of_hasForm {text : Text} (hform : hasForm text = true) :
    ∀ c ∈ text, isBlank c = false := by
  intro c hc
  have hchar := isFullTextChar_of_hasForm hform hc
  rw [isFullTextChar, Bool.or_eq_true, beq_iff_eq] at hchar
  rcases hchar with hversion | rfl
  · exact not_isBlank_of_isVersionChar hversion
  · decide

theorem head?_fullText_ne (v : Version) : v.fullText.head? ≠ some 'v' := by
  obtain ⟨c, rest, htext, hdigit⟩ := fullText_eq_cons v
  rw [htext, List.head?_cons]
  exact fun heq => ne_of_class hdigit (by decide) (Option.some.inj heq)

/-- A version is read from its full text alone, behind a `v` or nothing. -/
theorem read?_eq_some_iff {text : Text} {v : Version} :
    read? text = some v ↔ v.WellFormed ∧ (text = v.fullText ∨ text = 'v' :: v.fullText) := by
  have hread : read? text = some v ↔
      (fields text).isVersion = true ∧ (fields text).version? = some v := by
    rw [read?, hasForm, Option.ite_none_right_eq_some]
  rw [hread]
  by_cases hlead : ∃ rest, text = 'v' :: rest
  · obtain ⟨rest, rfl⟩ := hlead
    have hother : 'v' :: rest ≠ v.fullText := fun heq =>
      head?_fullText_ne v (by rw [← heq]; rfl)
    rw [show fields ('v' :: rest) = Fields.ofText rest from rfl, ofText_reads_iff]
    simp [hother]
  · have hhead : text.head? ≠ some 'v' := fun heq => by
      obtain ⟨rest, hrest⟩ := List.head?_eq_some_iff.mp heq
      exact hlead ⟨rest, hrest⟩
    have hother : text ≠ 'v' :: v.fullText := fun heq => hlead ⟨_, heq⟩
    rw [fields_of_head?_ne hhead, ofText_reads_iff]
    simp [hother]

/-- The canonical text of a version without build is the version. -/
theorem read?_text {v : Version} (hv : v.WellFormed) (hbuild : v.build = []) :
    read? v.text = some v :=
  read?_eq_some_iff.mpr ⟨hv, .inl (fullText_of_build_eq_nil hbuild).symm⟩

theorem hasForm_of_read? {text : Text} {v : Version} (hread : read? text = some v) :
    hasForm text = true := by
  rw [read?, Option.ite_none_right_eq_some] at hread
  exact hread.1

/-- A text is read exactly if it is the full text of a version but for blanks and a `v`. -/
theorem read_eq_ok_iff {source : Text} {v : Version} :
    read source = .ok v ↔
      v.WellFormed ∧ (trim source = v.fullText ∨ trim source = 'v' :: v.fullText) := by
  rw [← read?_eq_some_iff, read]
  cases read? (trim source) <;> simp

theorem wellFormed_of_read {source : Text} {v : Version} (hread : read source = .ok v) :
    v.WellFormed :=
  (read_eq_ok_iff.mp hread).1

/-- A well-formed version is read back from its full text. -/
theorem read_fullText {v : Version} (hv : v.WellFormed) : read v.fullText = .ok v :=
  read_eq_ok_iff.mpr ⟨hv, .inl (trim_eq_self_of_no_blank (not_isBlank_of_mem_fullText hv))⟩

/-- The canonical text of a well-formed version reads as the version without its
build. -/
theorem read_text {v : Version} (hv : v.WellFormed) :
    read v.text = .ok { v with build := [] } := by
  have hread := read_fullText hv.withoutBuild
  rwa [fullText_of_build_eq_nil rfl, text_withBuild] at hread

theorem hasForm_text {v : Version} (hv : v.WellFormed) : hasForm v.text = true := by
  apply hasForm_of_read? (v := { v with build := [] })
  rw [read?_eq_some_iff, fullText_of_build_eq_nil rfl, text_withBuild]
  exact ⟨hv.withoutBuild, .inl rfl⟩

theorem fullText_injective {v w : Version} (hv : v.WellFormed) (hw : w.WellFormed)
    (heq : v.fullText = w.fullText) : v = w := by
  have hread := read_fullText hv
  rw [heq, read_fullText hw] at hread
  exact (Except.ok.inj hread).symm

/-- Whether a text, apart from the blanks around it and one `v` in front, is the
full text of a version. -/
def IsWritten (source : Text) (v : Version) : Prop :=
  ∃ lead ∈ ([[], ['v']] : List Text), trim source = lead ++ v.fullText

/-- Reading accepts exactly the written forms of well-formed versions and gives
back the version that was written, field by field; every other text is at fault
as a whole.  The full text keeps all of a version and no two versions share it;
the canonical text loses the build only. -/
theorem read_inverts_written_forms :
    (∀ source v, read source = .ok v ↔ v.WellFormed ∧ IsWritten source v) ∧
      (∀ source error, read source = .error error ↔
        error = .invalidVersion source ∧ ∀ v : Version, v.WellFormed → ¬ IsWritten source v) ∧
      (∀ w : Version, w.WellFormed →
        read w.fullText = .ok w ∧ read w.text = .ok { w with build := [] }) ∧
      (∀ w : Version, w.WellFormed ↔ ∃ source, read source = .ok w) ∧
      (∀ v w : Version, v.WellFormed → w.WellFormed → v.fullText = w.fullText → v = w) ∧
      ∀ n : UInt64, isPlainNumeral (Identifier.numeric n).text = true := by
  have hread : ∀ source v, read source = .ok v ↔ v.WellFormed ∧ IsWritten source v := by
    intro source v
    rw [read_eq_ok_iff]
    simp [IsWritten]
  refine ⟨hread, ?_, fun w hw => ⟨read_fullText hw, read_text hw⟩, ?_,
    fun v w => fullText_injective, fun n => isPlainNumeral_decimal n.toNat⟩
  · intro source error
    cases hresult : read source with
    | ok v =>
      have hwritten := (hread source v).mp hresult
      simp only [reduceCtorEq, false_iff, not_and]
      exact fun _ hnone => hnone v hwritten.1 hwritten.2
    | error found =>
      have hfound : found = .invalidVersion source := by
        rw [read] at hresult
        split at hresult
        · cases hresult
        · exact (Except.error.inj hresult).symm
      have hnone : ∀ v : Version, v.WellFormed → ¬ IsWritten source v := by
        intro v hv hwritten
        have hok := (hread source v).mpr ⟨hv, hwritten⟩
        rw [hresult] at hok
        cases hok
      simp only [Except.error.injEq, hfound]
      exact ⟨fun heq => ⟨heq.symm, hnone⟩, fun hboth => hboth.1.symm⟩
  · intro w
    constructor
    · exact fun hw => ⟨w.fullText, read_fullText hw⟩
    · rintro ⟨source, hsource⟩
      exact wellFormed_of_read hsource

/-- The version `1.2.3-alpha.10+build.5`. -/
def alphaTen : Version where
  major := 1
  minor := 2
  patch := 3
  prerelease := [.textual ['a', 'l', 'p', 'h', 'a'], .numeric 10]
  build := [['b', 'u', 'i', 'l', 'd'], ['5']]

theorem read_inverts_written_forms_alphaTen :
    alphaTen.WellFormed ∧
      read (' ' :: 'v' :: "1.2.3-alpha.10+build.5".toList) = .ok alphaTen ∧
        read alphaTen.text = .ok { alphaTen with build := [] } := by
  have hwell : alphaTen.WellFormed := by decide
  have hwritten : IsWritten (' ' :: 'v' :: "1.2.3-alpha.10+build.5".toList) alphaTen :=
    ⟨['v'], by simp, by decide⟩
  exact ⟨hwell, (read_inverts_written_forms.1 _ _).mpr ⟨hwell, hwritten⟩,
    (read_inverts_written_forms.2.2.1 alphaTen hwell).2⟩

end Version

end SemanticVersions
