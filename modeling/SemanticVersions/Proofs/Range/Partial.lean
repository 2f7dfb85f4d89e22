import Mathlib.Data.List.TakeWhile
import SemanticVersions.Proofs.Version.Format
import SemanticVersions.Range.Hyphen
import SemanticVersions.Range.Shorthand

/-!
# The parts of partial versions

A text that reads as a partial version is a lead and one to three components with
points between them, and behind three components a prerelease and a build may stand.
All other facts about such texts come from these parts.
-/

namespace SemanticVersions

namespace Component

/-- A component is a wildcard, or a plain numeral that stands for a number. -/
theorem read?_eq_some {text : Text} {component : Component} (hread : read? text = some component) :
    component = .wildcard ∧ (text = ['x'] ∨ text = ['X'] ∨ text = ['*']) ∨
      isPlainNumeral text = true := by
  unfold read? at hread
  split at hread
  · cases hread
    simp
  · cases hread
    simp
  · cases hread
    simp
  · rw [Option.ite_none_right_eq_some] at hread
    exact .inr hread.1

/-- A component that is a number is written as a plain numeral. -/
theorem read?_eq_number {text : Text} {n : Nat} (hread : read? text = some (.number n)) :
    isPlainNumeral text = true ∧ decimalValue text = n := by
  unfold read? at hread
  split at hread
  · cases hread
  · cases hread
  · cases hread
  · rw [Option.ite_none_right_eq_some] at hread
    exact ⟨hread.1, by simpa using hread.2⟩

theorem exists_read? {text : Text}
    (htext : text = ['x'] ∨ text = ['X'] ∨ text = ['*'] ∨ isPlainNumeral text = true) :
    ∃ component, read? text = some component := by
  unfold read?
  split
  · exact ⟨_, rfl⟩
  · exact ⟨_, rfl⟩
  · exact ⟨_, rfl⟩
  · next hx hX hstar =>
    have hplain := ((htext.resolve_left hx).resolve_left hX).resolve_left hstar
    exact ⟨_, if_pos hplain⟩

theorem ne_nil_of_read? {text : Text} {component : Component}
    (hread : read? text = some component) : text ≠ [] := by
  rintro rfl
  cases hread

theorem of_mapM_read? {texts : List Text} {components : List Component}
    (hread : texts.mapM read? = some components) :
    components.length = texts.length ∧
      ∀ text ∈ texts, ∃ component ∈ components, read? text = some component := by
  induction texts generalizing components with
  | nil =>
    obtain rfl : components = [] := by simpa using hread.symm
    simp
  | cons text texts ih =>
    rw [List.mapM_cons] at hread
    obtain ⟨component, hcomponent, hread⟩ := Option.bind_eq_some_iff.mp hread
    obtain ⟨rest, hrest, hread⟩ := Option.bind_eq_some_iff.mp hread
    cases hread
    obtain ⟨hlength, hall⟩ := ih hrest
    refine ⟨by simp [hlength], List.forall_mem_cons.mpr ⟨⟨component, by simp, hcomponent⟩, ?_⟩⟩
    intro other hother
    obtain ⟨found, hfound, hother⟩ := hall other hother
    exact ⟨found, by simp [hfound], hother⟩

theorem exists_mapM_read? {texts : List Text}
    (htexts : ∀ text ∈ texts, ∃ component, read? text = some component) :
    ∃ components, texts.mapM read? = some components := by
  induction texts with
  | nil => exact ⟨[], rfl⟩
  | cons text texts ih =>
    obtain ⟨component, hcomponent⟩ := htexts text (by simp)
    obtain ⟨components, hcomponents⟩ := ih fun other hother => htexts other (by simp [hother])
    exact ⟨component :: components, by simp [hcomponent, hcomponents]⟩

end Component

namespace Partial

open Fields

/-- The prerelease of a partial version, which only a full one can have. -/
def prerelease : Partial → List Text
  | full _ _ _ prerelease => prerelease
  | _ => []

/-- Whether a partial version leaves nothing out. -/
def isFull : Partial → Bool
  | full _ _ _ _ => true
  | _ => false

theorem prerelease_of_not_isFull {version : Partial} (hfull : version.isFull = false) :
    version.prerelease = [] := by
  cases version with
  | full M m p prerelease => cases hfull
  | any => rfl
  | major M => rfl
  | minor M m => rfl

/-- The parts of a partial version behind its lead. -/
structure HasParts (text : Text) (release prerelease build : List Text) : Prop where
  text_eq : text.dropWhile isLead =
    joinWith ['.'] release ++ Version.markedText '-' prerelease ++ Version.markedText '+' build
  component : ∀ part ∈ release, ∃ component, Component.read? part = some component
  release_pos : 0 < release.length
  release_le : release.length ≤ 3
  suffix_full : release.length < 3 → prerelease = [] ∧ build = []
  prerelease_field : ∀ part ∈ prerelease, isPrereleaseField part = true
  build_field : ∀ part ∈ build, isBuildField part = true

theorem ofComponents?_eq_some {components : List Component} {suffix : List Text}
    {version : Partial} (hversion : ofComponents? components suffix = some version) :
    0 < components.length ∧ components.length ≤ 3 ∧
      (version.prerelease = [] ∨ version.prerelease = suffix) ∧
        (version.isFull = true → .wildcard ∉ components) := by
  unfold ofComponents? at hversion
  split at hversion <;> cases hversion <;> simp [prerelease, isFull]

theorem exists_ofComponents? {components : List Component} (suffix : List Text)
    (hpos : 0 < components.length) (hle : components.length ≤ 3) :
    ∃ version, ofComponents? components suffix = some version := by
  match components, hpos, hle with
  | [first], _, _ => cases first <;> exact ⟨_, rfl⟩
  | [first, second], _, _ => cases first <;> cases second <;> exact ⟨_, rfl⟩
  | [first, second, third], _, _ =>
    cases first <;> cases second <;> cases third <;> exact ⟨_, rfl⟩
  | _ :: _ :: _ :: _ :: _, _, hle =>
    simp only [List.length_cons] at hle
    omega

/-- A full version has three numbers, and what is written behind them is its prerelease. -/
theorem ofComponents?_eq_full {components : List Component} {suffix prerelease : List Text}
    {M m p : Nat} (hversion : ofComponents? components suffix = some (full M m p prerelease)) :
    components = [.number M, .number m, .number p] ∧ suffix = prerelease := by
  unfold ofComponents? at hversion
  split at hversion <;> cases hversion
  exact ⟨rfl, rfl⟩

/-- The fields of a partial version that leaves nothing out are those of a version. -/
theorem fields_of_full {text : Text} {M m p : Nat} {prerelease : List Text}
    (hread : read? text = some (full M m p prerelease)) :
    ∃ major minor patch, (Fields.ofText (text.dropWhile isLead)).release = [major, minor, patch] ∧
      decimalValue major = M ∧ decimalValue minor = m ∧ decimalValue patch = p ∧
        (Fields.ofText (text.dropWhile isLead)).prerelease.getD [] = prerelease ∧
          (Fields.ofText (text.dropWhile isLead)).isVersion = true := by
  rw [read?, ofFields?] at hread
  obtain ⟨components, hcomponents, hread⟩ := Option.bind_eq_some_iff.mp hread
  rw [Option.ite_none_right_eq_some] at hread
  obtain ⟨hsuffix, hversion⟩ := hread
  obtain ⟨rfl, hprerelease⟩ := ofComponents?_eq_full hversion
  have hlength := (Component.of_mapM_read? hcomponents).1
  obtain ⟨major, minor, patch, hrelease⟩ : ∃ major minor patch,
      (Fields.ofText (text.dropWhile isLead)).release = [major, minor, patch] := by
    match (Fields.ofText (text.dropWhile isLead)).release, hlength with
    | [first, second, third], _ => exact ⟨first, second, third, rfl⟩
  have hparts : Component.read? major = some (.number M) ∧
      Component.read? minor = some (.number m) ∧ Component.read? patch = some (.number p) := by
    simpa [hrelease, List.mapM_cons, Option.bind_eq_some_iff] using hcomponents
  obtain ⟨hmajor, hmajorValue⟩ := Component.read?_eq_number hparts.1
  obtain ⟨hminor, hminorValue⟩ := Component.read?_eq_number hparts.2.1
  obtain ⟨hpatch, hpatchValue⟩ := Component.read?_eq_number hparts.2.2
  have hallowed : (Fields.ofText (text.dropWhile isLead)).suffixAllowed = true := by
    rcases Bool.or_eq_true_iff.mp hsuffix with habsent | hallowed
    · obtain ⟨hnoPrerelease, hnoBuild⟩ : (Fields.ofText (text.dropWhile isLead)).prerelease = none ∧
          (Fields.ofText (text.dropWhile isLead)).build = none := by
        simpa [Fields.suffixAbsent] using habsent
      simp [Fields.suffixAllowed, hnoPrerelease, hnoBuild]
    · exact (Bool.and_eq_true_iff.mp hallowed).2
  refine ⟨major, minor, patch, hrelease, hmajorValue, hminorValue, hpatchValue, hprerelease, ?_⟩
  simp [Fields.isVersion, hrelease, hmajor, hminor, hpatch, hallowed]

/-- A partial version that is read has its parts behind the lead. -/
theorem hasParts_of_read? {text : Text} {version : Partial} (hread : read? text = some version) :
    ∃ release suffix build, HasParts text release suffix build ∧
      (version.prerelease = [] ∨ version.prerelease = suffix) ∧
        (version.isFull = true → ∀ part ∈ release, isPlainNumeral part = true) := by
  rw [read?, ofFields?] at hread
  obtain ⟨components, hcomponents, hread⟩ := Option.bind_eq_some_iff.mp hread
  rw [Option.ite_none_right_eq_some] at hread
  obtain ⟨hsuffix, hversion⟩ := hread
  obtain ⟨hlength, hall⟩ := Component.of_mapM_read? hcomponents
  obtain ⟨hpos, hle, hprerelease, hwildcard⟩ := ofComponents?_eq_some hversion
  have hcases : ((Fields.ofText (text.dropWhile isLead)).prerelease = none ∧
      (Fields.ofText (text.dropWhile isLead)).build = none) ∨
        components.length = 3 ∧ (Fields.ofText (text.dropWhile isLead)).suffixAllowed = true := by
    simpa [suffixAbsent] using hsuffix
  refine ⟨_, _, _, ⟨(Version.assemble_ofText (text.dropWhile isLead)).symm, ?_, by omega,
    by omega, ?_, ?_, ?_⟩, hprerelease, ?_⟩
  · intro part hpart
    obtain ⟨component, _, hcomponent⟩ := hall part hpart
    exact ⟨component, hcomponent⟩
  · rcases hcases with ⟨hnoPrerelease, hnoBuild⟩ | hfull
    · simp [hnoPrerelease, hnoBuild]
    · omega
  · rcases hcases with ⟨hnoPrerelease, _⟩ | ⟨_, hallowed⟩
    · simp [hnoPrerelease]
    · simp only [suffixAllowed, Bool.and_eq_true, List.all_eq_true] at hallowed
      exact hallowed.1
  · rcases hcases with ⟨_, hnoBuild⟩ | ⟨_, hallowed⟩
    · simp [hnoBuild]
    · simp only [suffixAllowed, Bool.and_eq_true, List.all_eq_true] at hallowed
      exact hallowed.2
  · intro hfull part hpart
    obtain ⟨component, hmem, hcomponent⟩ := hall part hpart
    rcases Component.read?_eq_some hcomponent with ⟨rfl, _⟩ | hplain
    · exact absurd hmem (hwildcard hfull)
    · exact hplain

/-- The cuts behind the lead fall between the parts. -/
theorem HasParts.fields_eq {text : Text} {release suffix build : List Text}
    (hparts : HasParts text release suffix build) :
    Fields.ofText (text.dropWhile isLead) =
      { release, prerelease := Version.given suffix, build := Version.given build } := by
  have hmarks : ∀ part ∈ release, '.' ∉ part ∧ '-' ∉ part ∧ '+' ∉ part := by
    intro part hpart
    obtain ⟨component, hcomponent⟩ := hparts.component part hpart
    rcases Component.read?_eq_some hcomponent with ⟨_, rfl | rfl | rfl⟩ | hplain
    · decide
    · decide
    · decide
    · exact not_mem_of_isPlainNumeral hplain
  rw [hparts.text_eq]
  exact Version.ofText_assemble (List.ne_nil_of_length_pos hparts.release_pos) hmarks
    (fun part hpart => not_mem_of_isPrereleaseField (hparts.prerelease_field part hpart))
    (fun part hpart => not_mem_of_isBuildField (hparts.build_field part hpart))

theorem HasParts.suffix_allowed {text : Text} {release suffix build : List Text}
    (hparts : HasParts text release suffix build) :
    (Fields.ofText (text.dropWhile isLead)).suffixAbsent = true ∨
      release.length = 3 ∧ (Fields.ofText (text.dropWhile isLead)).suffixAllowed = true := by
  rw [hparts.fields_eq]
  rcases Nat.lt_or_ge release.length 3 with hshort | hlong
  · obtain ⟨rfl, rfl⟩ := hparts.suffix_full hshort
    exact .inl rfl
  · have hsuffix := List.all_eq_true.mpr hparts.prerelease_field
    have hbuild := List.all_eq_true.mpr hparts.build_field
    exact .inr ⟨Nat.le_antisymm hparts.release_le hlong, by simp [suffixAllowed, hsuffix, hbuild]⟩

/-- A text reads as a partial version exactly if it has the parts of one. -/
theorem exists_read?_iff {text : Text} :
    (∃ version, read? text = some version) ↔
      ∃ release suffix build, HasParts text release suffix build := by
  constructor
  · rintro ⟨version, hread⟩
    obtain ⟨release, suffix, build, hparts, _⟩ := hasParts_of_read? hread
    exact ⟨release, suffix, build, hparts⟩
  · rintro ⟨release, suffix, build, hparts⟩
    obtain ⟨components, hcomponents⟩ := Component.exists_mapM_read? hparts.component
    have hlength := (Component.of_mapM_read? hcomponents).1
    have hpos : 0 < components.length := hlength ▸ hparts.release_pos
    have hle : components.length ≤ 3 := hlength ▸ hparts.release_le
    have hallowed : ((Fields.ofText (text.dropWhile isLead)).suffixAbsent ||
        (components.length == 3 && (Fields.ofText (text.dropWhile isLead)).suffixAllowed)) =
          true := by
      simpa [hlength] using hparts.suffix_allowed
    obtain ⟨version, hversion⟩ :=
      exists_ofComponents? ((Fields.ofText (text.dropWhile isLead)).prerelease.getD []) hpos hle
    refine ⟨version, ?_⟩
    have hrelease : (Fields.ofText (text.dropWhile isLead)).release = release := by
      rw [hparts.fields_eq]
    rw [read?, ofFields?, hrelease, hcomponents]
    exact (if_pos hallowed).trans hversion

/-! ### Characters -/

def isBodyChar (c : Char) : Bool :=
  isVersionChar c || c == '+' || c == '*'

theorem not_isBlank_of_isBodyChar {c : Char} (hc : isBodyChar c = true) : isBlank c = false := by
  rw [isBodyChar, Bool.or_eq_true, Bool.or_eq_true, beq_iff_eq, beq_iff_eq] at hc
  rcases hc with (hversion | rfl) | rfl
  · exact not_isBlank_of_isVersionChar hversion
  · decide
  · decide

theorem isBodyChar_of_mem_component {text : Text} {component : Component}
    (hread : Component.read? text = some component) {c : Char} (hc : c ∈ text) :
    isBodyChar c = true := by
  rcases Component.read?_eq_some hread with ⟨_, rfl | rfl | rfl⟩ | hplain
  · rw [List.mem_singleton.mp hc]
    rfl
  · rw [List.mem_singleton.mp hc]
    rfl
  · rw [List.mem_singleton.mp hc]
    rfl
  · have hdigit := (isNumeral_iff.mp (isNumeral_of_isPlainNumeral hplain)).2 c hc
    have hversion := isVersionChar_of_isIdentifierChar (isIdentifierChar_of_isDigit hdigit)
    simp [isBodyChar, hversion]

theorem isLead_of_isDigit {c : Char} (hdigit : c.isDigit = true) : isLead c = false := by
  have hv : c ≠ 'v' := ne_of_class hdigit (by decide)
  have hequal : c ≠ '=' := ne_of_class hdigit (by decide)
  have hblank := not_isBlank_of_isIdentifierChar (isIdentifierChar_of_isDigit hdigit)
  simp [isLead, hv, hequal, hblank]

theorem not_isLead_of_mem_component {text : Text} {component : Component}
    (hread : Component.read? text = some component) {c : Char} (hc : c ∈ text) :
    isLead c = false := by
  rcases Component.read?_eq_some hread with ⟨_, rfl | rfl | rfl⟩ | hplain
  · rw [List.mem_singleton.mp hc]
    decide
  · rw [List.mem_singleton.mp hc]
    decide
  · rw [List.mem_singleton.mp hc]
    decide
  · exact isLead_of_isDigit ((isNumeral_iff.mp (isNumeral_of_isPlainNumeral hplain)).2 c hc)

/-- A partial version is more than its lead. -/
theorem dropWhile_ne_nil_of_read? {text : Text} {version : Partial}
    (hread : read? text = some version) : text.dropWhile isLead ≠ [] := by
  intro hnil
  rw [read?, hnil] at hread
  cases hread

/-- The lead of a partial version ends at its first component. -/
theorem dropWhile_isLead {lead first : Text} {component : Component}
    (hlead : ∀ c ∈ lead, isLead c = true) (hfirst : Component.read? first = some component)
    (rest : Text) : (lead ++ (first ++ rest)).dropWhile isLead = first ++ rest := by
  rw [List.dropWhile_append_of_pos hlead]
  obtain ⟨c, tail, rfl⟩ := List.exists_cons_of_ne_nil (Component.ne_nil_of_read? hfirst)
  have hc : isLead c = false := not_isLead_of_mem_component hfirst List.mem_cons_self
  exact List.dropWhile_cons_of_neg (by simp [hc])

section Parts

variable {text : Text} {release suffix build : List Text}
  (hparts : HasParts text release suffix build)

include hparts

theorem HasParts.isBodyChar {c : Char} (hc : c ∈ text.dropWhile isLead) : isBodyChar c = true := by
  have hbody : ∀ d, isIdentifierChar d = true → Partial.isBodyChar d = true := fun d hd => by
    simp [Partial.isBodyChar, isVersionChar_of_isIdentifierChar hd]
  rw [hparts.text_eq, List.mem_append, List.mem_append] at hc
  rcases hc with (hrelease | hsuffix) | hbuild
  · rcases mem_joinWith hrelease with hpoint | ⟨part, hpart, hc⟩
    · rw [List.mem_singleton.mp hpoint]
      rfl
    · obtain ⟨component, hcomponent⟩ := hparts.component part hpart
      exact isBodyChar_of_mem_component hcomponent hc
  · rcases Version.mem_markedText hsuffix with rfl | rfl | ⟨part, hpart, hc⟩
    · rfl
    · rfl
    · exact hbody c (isIdentifierChar_of_mem_field (hparts.prerelease_field part hpart) hc)
  · rcases Version.mem_markedText hbuild with rfl | rfl | ⟨part, hpart, hc⟩
    · rfl
    · rfl
    · exact hbody c (isIdentifierChar_of_mem_buildField (hparts.build_field part hpart) hc)

theorem HasParts.mem {c : Char} (hc : c ∈ text) :
    isLead c = true ∨ Partial.isBodyChar c = true := by
  have hsplit : text.takeWhile isLead ++ text.dropWhile isLead = text :=
    List.takeWhile_append_dropWhile
  rw [← hsplit, List.mem_append] at hc
  exact hc.imp List.mem_takeWhile_imp hparts.isBodyChar

end Parts

end Partial

/-! ### Shorthands -/

namespace Shorthand

def version : Shorthand → Partial
  | caret version => version
  | tilde version => version
  | compared _ version => version

/-- The partial version of a shorthand stands behind a caret or a tilde, or it stands behind
a sign and leaves something out. -/
theorem of_read? {token : Text} {shorthand : Shorthand} (hread : read? token = some shorthand) :
    (∃ front rest, token = front ++ rest ∧
        (front = ['^'] ∨ front = ['~'] ∨ front = ['~', '>']) ∧
          Partial.read? rest = some shorthand.version) ∨
      Partial.read? (spanSign token).2 = some shorthand.version ∧
        shorthand.version.isFull = false := by
  unfold read? at hread
  split at hread
  · next rest =>
    obtain ⟨version, hversion, rfl⟩ := Option.map_eq_some_iff.mp hread
    exact .inl ⟨['^'], rest, rfl, .inl rfl, hversion⟩
  · next rest =>
    obtain ⟨version, hversion, rfl⟩ := Option.map_eq_some_iff.mp hread
    exact .inl ⟨['~', '>'], rest, rfl, .inr (.inr rfl), hversion⟩
  · next rest _ =>
    obtain ⟨version, hversion, rfl⟩ := Option.map_eq_some_iff.mp hread
    exact .inl ⟨['~'], rest, rfl, .inr (.inl rfl), hversion⟩
  · unfold readCompared? at hread
    split at hread
    · cases hread
    · next operator version hfull _ hversion =>
      cases hread
      refine .inr ⟨hversion, ?_⟩
      cases version with
      | full M m p prerelease => exact (hfull M m p prerelease rfl).elim
      | any => rfl
      | major M => rfl
      | minor M m => rfl
    · cases hread

end Shorthand

/-! ### Hyphen ranges -/

namespace HyphenRange

theorem spanVersion_append (text : Text) : (spanVersion text).1 ++ (spanVersion text).2 = text := by
  have hbody : (text.dropWhile Partial.isLead).takeWhile (!isBlank ·) ++
      (text.dropWhile Partial.isLead).dropWhile (!isBlank ·) = text.dropWhile Partial.isLead :=
    List.takeWhile_append_dropWhile
  rw [spanVersion, List.append_assoc, hbody]
  exact List.takeWhile_append_dropWhile

theorem afterHyphen?_suffix {text rest : Text} (hafter : afterHyphen? text = some rest) :
    rest <:+ text := by
  unfold afterHyphen? at hafter
  split at hafter
  · next c tail hstart =>
    rw [Option.ite_none_right_eq_some] at hafter
    obtain rfl : trimStart tail = rest := Option.some.inj hafter.2
    have hbehind : tail <:+ trimStart text := by
      rw [hstart]
      exact List.suffix_append ['-', c] tail
    exact ((trimStart_suffix tail).trans hbehind).trans (trimStart_suffix text)
  · cases hafter

/-- Both ends of a hyphen range are parts of its text. -/
theorem of_read? {text : Text} {range : HyphenRange} (hread : read? text = some range) :
    range.lowerText <:+: text ∧ range.upperText <:+: text ∧
      Partial.read? range.lowerText = some range.lower ∧
        Partial.read? range.upperText = some range.upper := by
  obtain ⟨upperText, hafter, hread⟩ := Option.bind_eq_some_iff.mp hread
  obtain ⟨lower, hlower, hread⟩ := Option.bind_eq_some_iff.mp hread
  obtain ⟨upper, hupper, hread⟩ := Option.bind_eq_some_iff.mp hread
  cases hread
  have hparts := spanVersion_append text
  have hfirst : (spanVersion text).1 <:+: text := by
    exact ⟨[], (spanVersion text).2, hparts⟩
  have hsecond : (spanVersion text).2 <:+ text := ⟨_, hparts⟩
  exact ⟨hfirst, ((afterHyphen?_suffix hafter).trans hsecond).isInfix, hlower, hupper⟩

end HyphenRange

end SemanticVersions
