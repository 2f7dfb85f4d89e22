import SemanticVersions.Proofs.Range.Leading
import SemanticVersions.Proofs.Range.Written

/-!
# What is between the ends of a hyphen range

A hyphen range is written out as a lower and an upper bound, and read again as what these ask
for.  The bound of a partial end is put together from its numbers, and that of a full end mostly
from its text, so a `v` and a build stand in the bound again.  The range accepts what is between
its ends, and of the prereleases those of the release of an end that is a prerelease itself.
-/

namespace SemanticVersions

open Std

/-! ### Full versions -/

namespace Partial

/-- Behind the lead of a partial version that leaves nothing out stands the full text of a
version, if a version can hold it. -/
theorem exists_fullText {text : Text} {version : Partial} {base : Version}
    (hread : read? text = some version) (hfull : version.isFull = true)
    (hbase : version.floor? = some base) :
    ∃ build, ({ base with build := build } : Version).WellFormed ∧
      text.dropWhile isLead = ({ base with build := build } : Version).fullText := by
  cases version with
  | any => cases hfull
  | major M => cases hfull
  | minor M m => cases hfull
  | full M m p prerelease =>
    obtain ⟨major, minor, patch, hrelease, rfl, rfl, rfl, rfl, hform⟩ := fields_of_full hread
    obtain ⟨hfits, ids, hids, rfl⟩ := floor?_eq_some_iff.mp hbase
    obtain ⟨hmajor, hminor, hpatch⟩ : decimalValue major ≤ maxWord ∧ decimalValue minor ≤ maxWord ∧
        decimalValue patch ≤ maxWord := by simpa [numbers] using hfits
    refine ⟨(Fields.ofText (text.dropWhile isLead)).build.getD [], ?_⟩
    apply Version.ofText_reads_iff.mp
    exact ⟨hform, Version.version?_eq_some_iff.mpr ⟨major, minor, patch, hrelease,
      readWord?_of_le hmajor, readWord?_of_le hminor, readWord?_of_le hpatch, hids, rfl⟩⟩

end Partial

/-! ### The meaning of bounds -/

namespace Comparator

/-- Comparators that hold of the versions that pass, and of these admit the ones named. -/
structure Delimit (comparators : List Comparator) (passes named : Version → Prop) : Prop where
  test_iff : ∀ v, (∀ c ∈ comparators, c.test v = true) ↔ passes v
  admits_iff : ∀ v, passes v → ((∃ c ∈ comparators, admits v c = true) ↔ named v)

namespace Delimit

variable {front back : List Comparator} {passes named passes' named' : Version → Prop}

/-- Two lists of comparators hold where both do, and admit what either admits. -/
theorem append (hfront : Delimit front passes named) (hback : Delimit back passes' named') :
    Delimit (front ++ back) (fun v => passes v ∧ passes' v) fun v => named v ∨ named' v where
  test_iff v := by rw [List.forall_mem_append, hfront.test_iff, hback.test_iff]
  admits_iff v := by
    rintro ⟨hv, hv'⟩
    simp only [List.mem_append, or_and_right, exists_or, hfront.admits_iff v hv,
      hback.admits_iff v hv']

/-- A prerelease has to be named besides passing. -/
theorem testAll_iff (hdelimit : Delimit front passes named) (v : Version) :
    testAll front v = true ↔ passes v ∧ (v.isPrerelease = true → named v) := by
  rw [Comparator.testAll_iff, hdelimit.test_iff]
  exact and_congr_right fun hv => imp_congr_right fun _ => hdelimit.admits_iff v hv

end Delimit

end Comparator

namespace HyphenRange

open Comparator

/-- Whether a text is read as an end of a hyphen range, behind a `v` or nothing.  The version
`least` has the numbers of the end, and zeros for those left out. -/
structure IsEnd (text : Text) (version : Partial) (least : Version) : Prop where
  lead : text.takeWhile Partial.isLead = [] ∨ text.takeWhile Partial.isLead = ['v']
  reads : Partial.read? text = some version
  least_eq : version.floor? = some least

namespace IsEnd

variable {text : Text} {version : Partial} {least : Version} (hend : IsEnd text version least)

include hend

theorem isToken : IsToken text := by
  obtain ⟨release, suffix, build, hparts⟩ := Partial.exists_read?_iff.mp ⟨version, hend.reads⟩
  constructor
  · rintro rfl
    cases hend.reads
  · have hsplit : text.takeWhile Partial.isLead ++ text.dropWhile Partial.isLead = text :=
      List.takeWhile_append_dropWhile
    rw [← hsplit, List.forall_mem_append]
    constructor
    · rcases hend.lead with hlead | hlead <;> rw [hlead] <;> exact not_isBlank_of_all (by decide)
    · exact fun c hc => Partial.not_isBlank_of_isBodyChar (hparts.isBodyChar hc)

/-- An end that leaves nothing out is a version. -/
theorem exists_read? (hfull : version.isFull = true) :
    ∃ build, Version.read? text = some { least with build := build } := by
  obtain ⟨build, hwell, hbody⟩ := Partial.exists_fullText hend.reads hfull hend.least_eq
  have hsplit : text.takeWhile Partial.isLead ++ text.dropWhile Partial.isLead = text :=
    List.takeWhile_append_dropWhile
  refine ⟨build, Version.read?_eq_some_iff.mpr ⟨hwell, ?_⟩⟩
  rw [← hsplit, hbody]
  rcases hend.lead with hlead | hlead
  · exact .inl (by rw [hlead]; rfl)
  · exact .inr (by rw [hlead]; rfl)

/-- The least version of an end is read back from its text. -/
theorem read?_text : Version.read? least.text = some least := by
  have hwell := Partial.floor?_wellFormed hend.reads hend.least_eq
  obtain ⟨-, ids, -, rfl⟩ := Partial.floor?_eq_some_iff.mp hend.least_eq
  exact Version.read?_text hwell rfl

end IsEnd

def Names (version : Partial) (least v : Version) : Prop :=
  version.isFull = true ∧ least.isPrerelease = true ∧ least.sameRelease v = true

def IsFrom (lower : Partial) (base v : Version) : Prop :=
  lower = .any ∨ (compare base v).isLE = true

/-- Whether a version is not behind an upper end.  With an end that is partial only as many
numbers are compared as it gives. -/
def IsUpTo (upper : Partial) (top v : Version) : Prop :=
  if upper.isFull = true then
    (compare v top).isLE = true
  else
    (v.compareLeading upper).isLE = true

instance (lower : Partial) (base v : Version) : Decidable (IsFrom lower base v) :=
  inferInstanceAs (Decidable (lower = .any ∨ (compare base v).isLE = true))

instance (upper : Partial) (top v : Version) : Decidable (IsUpTo upper top v) :=
  inferInstanceAs (Decidable (if upper.isFull = true then (compare v top).isLE = true
    else (v.compareLeading upper).isLE = true))

instance (version : Partial) (least v : Version) : Decidable (Names version least v) :=
  inferInstanceAs (Decidable (version.isFull = true ∧ least.isPrerelease = true ∧
    least.sameRelease v = true))

theorem compare_withBuild (a b : Version) (build : List Text) :
    compare ({ a with build := build } : Version) b = compare a b := rfl

section Bounds

variable {range : HyphenRange} {base top : Version}

/-- A lower end that is no wildcard is written out as the bound from its least version on. -/
theorem exists_lowerBound (hlower : IsEnd range.lowerText range.lower base)
    (hany : range.lower ≠ .any) :
    ∃ text build, range.lowerBound = Operator.greaterEqual.text ++ text ∧
      Version.read? text = some { base with build := build } := by
  obtain ⟨lowerText, lower, upperText, upper⟩ := range
  have hbound := Partial.ofVersion_floor? hlower.reads hlower.least_eq .greaterEqual
  have hwritten := Bound.text_ofVersion .greaterEqual base
  rw [hbound] at hwritten
  cases lower with
  | any => exact absurd rfl hany
  | major M => exact ⟨base.text, base.build, hwritten, hlower.read?_text⟩
  | minor M m => exact ⟨base.text, base.build, hwritten, hlower.read?_text⟩
  | full M m p prerelease =>
    obtain ⟨build, hread⟩ := hlower.exists_read? rfl
    exact ⟨lowerText, build, rfl, hread⟩

/-- An upper end that leaves nothing out is written out as the bound up to its version. -/
theorem exists_upperBound?_of_full (hupper : IsEnd range.upperText range.upper top)
    (hfull : range.upper.isFull = true) :
    ∃ text build, range.upperBound? = some (Operator.lessEqual.text ++ text) ∧
      Version.read? text = some { top with build := build } := by
  obtain ⟨lowerText, lower, upperText, upper⟩ := range
  have hbound := Partial.ofVersion_floor? hupper.reads hupper.least_eq .lessEqual
  have hwritten := Bound.text_ofVersion .lessEqual top
  rw [hbound] at hwritten
  cases upper with
  | any => cases hfull
  | major M => cases hfull
  | minor M m => cases hfull
  | full M m p prerelease =>
    cases prerelease with
    | nil =>
      obtain ⟨build, hread⟩ := hupper.exists_read? hfull
      exact ⟨upperText, build, rfl, hread⟩
    | cons first others =>
      exact ⟨top.text, top.build, congrArg some hwritten, hupper.read?_text⟩

/-- A partial upper end that is no wildcard is written out as the bound below the release behind
the versions that begin with its numbers. -/
theorem upperBound?_of_partial (hfits : ∀ n ∈ range.upper.numbers, n ≤ maxWord)
    (hfull : range.upper.isFull = false) (hany : range.upper ≠ .any) :
    range.upperBound? =
      range.upper.after?.map fun release => Operator.less.text ++ release.opening.text := by
  have hwritten : ∀ {bound? : Option Bound}, (bound? = range.upper.after?.map fun release =>
      Bound.ofVersion .less release.opening) → bound?.map Bound.text =
        range.upper.after?.map fun release => Operator.less.text ++ release.opening.text := by
    rintro _ rfl
    simp [Function.comp_def, Bound.text_ofVersion, Comparator.text]
  obtain ⟨lowerText, lower, upperText, upper⟩ := range
  cases upper with
  | any => exact absurd rfl hany
  | major M =>
    rw [← hwritten (Partial.map_next?_below [] rfl (List.forall_mem_nil _)), Option.map_map]
    exact Option.map_eq_bind.symm
  | minor M m =>
    have hfront : ∀ n ∈ [M], n ≤ maxWord := by simpa using hfits M (by simp [Partial.numbers])
    rw [← hwritten (Partial.map_next?_below [M] rfl hfront), Option.map_map]
    exact Option.map_eq_bind.symm
  | full M m p prerelease => cases hfull

end Bounds

/-! ### The meaning of the bounds -/

section Meaning

variable {version : Partial} {least : Version} (hleast : version.floor? = some least)

include hleast

/-- A partial end is no prerelease. -/
theorem admits_iff_names (operator : Operator) (build : List Text) (v : Version) :
    admits v (.bound operator { least with build := build }) = true ↔ Names version least v := by
  have hfull : least.isPrerelease = true → version.isFull = true := by
    intro hprerelease
    by_contra hpartial
    rw [Partial.floor?_isPrerelease_eq_false hleast (by simpa using hpartial)] at hprerelease
    cases hprerelease
  have hadmits : admits v (.bound operator { least with build := build }) =
      (least.isPrerelease && least.sameRelease v) := rfl
  rw [hadmits, Bool.and_eq_true, Names]
  exact ⟨fun hnamed => ⟨hfull hnamed.1, hnamed⟩, fun hnamed => hnamed.2⟩

/-- The bound of a lower end delimits the versions from its least version on. -/
theorem delimit_greaterEqual (hany : version ≠ .any) (build : List Text) :
    Delimit [.bound .greaterEqual { least with build := build }] (IsFrom version least)
      (Names version least) where
  test_iff v := by
    rw [List.forall_mem_singleton, test_greaterEqual_iff, IsFrom, compare_withBuild]
    simp [hany]
  admits_iff v _ := by simp [admits_iff_names hleast]

theorem delimit_lessEqual (hfull : version.isFull = true) (build : List Text) :
    Delimit [.bound .lessEqual { least with build := build }] (IsUpTo version least)
      (Names version least) where
  test_iff v := by
    rw [List.forall_mem_singleton, IsUpTo, if_pos hfull]
    exact Iff.rfl
  admits_iff v _ := by simp [admits_iff_names hleast]

/-- What the opening of a release admits it does not hold of. -/
theorem delimit_less_opening (hfull : version.isFull = false) {release : Version}
    (hafter : version.after? = some release) :
    Delimit [.bound .less release.opening] (IsUpTo version least) (Names version least) where
  test_iff v := by
    have hfits := (Partial.floor?_eq_some_iff.mp hleast).1
    rw [List.forall_mem_singleton, test_less_opening_iff, IsUpTo, hfull]
    exact Partial.compareRelease_after?_eq_lt_iff hfits hafter v
  admits_iff v hv := by
    have hnot : ¬ Names version least v := fun hnamed => by
      rw [Names, hfull] at hnamed
      cases hnamed.1
    simp only [List.mem_singleton, exists_eq_left, hnot, iff_false]
    intro hadmits
    have hfails := (unasking_less_opening release).test_eq_false hadmits
    have hfits := (Partial.floor?_eq_some_iff.mp hleast).1
    rw [IsUpTo, hfull] at hv
    have hholds := test_less_opening_iff.mpr
      ((Partial.compareRelease_after?_eq_lt_iff hfits hafter v).mpr hv)
    rw [hholds] at hfails
    cases hfails

end Meaning

theorem delimit_nil {passes : Version → Prop} (hpasses : ∀ v, passes v) (least : Version) :
    Delimit [] passes (Names .any least) where
  test_iff v := by simp [hpasses v]
  admits_iff v _ := by simp [Names, Partial.isFull]

/-! ### The ends as they are read again -/

def boundText (written? : Option Written) : Text :=
  (written?.map Written.text).getD []

/-- Blanks around a bound that stands alone are dropped. -/
theorem trim_boundTexts (lower? upper? : Option Written) :
    trim (boundText lower? ++ ' ' :: boundText upper?) =
      joinWith [' '] ((lower?.toList ++ upper?.toList).map Written.text) := by
  have hblank : isBlank ' ' = true := by decide
  cases lower? with
  | none =>
    cases upper? with
    | none => rfl
    | some upper =>
      have htrim := upper.token.isTrimmed.trim_eq
      simp [boundText, trim_cons_of_blank hblank, htrim]
  | some lower =>
    cases upper? with
    | none =>
      have htrim := lower.token.isTrimmed.trim_eq
      simp [boundText, trim_append_of_blank hblank, htrim]
    | some upper =>
      have htexts : boundText (some lower) ++ ' ' :: boundText (some upper) =
          joinWith [' '] [lower.text, upper.text] := by
        simp [boundText, joinWith_cons_cons]
      have htokens : ∀ token ∈ [lower.text, upper.text], IsTrimmed token := by
        simpa using ⟨lower.token.isTrimmed, upper.token.isTrimmed⟩
      rw [htexts, (isTrimmed_joinWith (by simp) htokens).trim_eq]
      rfl

section Ends

variable {range : HyphenRange} {base top : Version}

/-- The lower bound is written as a comparator that delimits the versions from the end on, or is
left out. -/
theorem exists_lower (hlower : IsEnd range.lowerText range.lower base)
    (hzero : range.lower ≠ .any → base ≠ ⟨0, 0, 0, [], []⟩) :
    ∃ lower? : Option Written, range.lowerBound = boundText lower? ∧
      Delimit (lower?.toList.map Written.comparator) (IsFrom range.lower base)
        (Names range.lower base) := by
  by_cases hany : range.lower = .any
  · refine ⟨none, by rw [lowerBound, hany]; rfl, ?_⟩
    rw [hany]
    exact delimit_nil (fun v => .inl rfl) base
  · obtain ⟨text, build, hwritten, hread⟩ := exists_lowerBound hlower hany
    have hkept : (bound .greaterEqual { base with build := build }).isAtLeastZero = false := by
      rw [Bool.eq_false_iff, Ne, isAtLeastZero_iff]
      rintro ⟨other, hother⟩
      obtain ⟨-, ids, -, rfl⟩ := Partial.floor?_eq_some_iff.mp hlower.least_eq
      apply hzero hany
      simp_all [Version.ofNumbers]
    exact ⟨some (.ofVersion .greaterEqual rfl text _ hread hkept), hwritten,
      delimit_greaterEqual hlower.least_eq hany build⟩

/-- Only a partial upper end may have no bound that can be held. -/
theorem upperBound?_cases (hupper : IsEnd range.upperText range.upper top) :
    (range.upper.isFull = false ∧ range.upper.numbers.getLast? = some maxWord) ∧
        range.upperBound? = none ∨
      ¬ (range.upper.isFull = false ∧ range.upper.numbers.getLast? = some maxWord) ∧
        ∃ upper? : Option Written, range.upperBound? = some (boundText upper?) ∧
          Delimit (upper?.toList.map Written.comparator) (IsUpTo range.upper top)
            (Names range.upper top) := by
  by_cases hany : range.upper = .any
  · refine .inr ⟨by simp [hany, Partial.numbers], none, by rw [upperBound?, hany]; rfl, ?_⟩
    rw [hany]
    exact delimit_nil (fun v => rfl) top
  cases hfull : range.upper.isFull with
  | true =>
    obtain ⟨text, build, hwritten, hread⟩ := exists_upperBound?_of_full hupper hfull
    exact .inr ⟨by simp, some (.ofVersion .lessEqual rfl text _ hread rfl), hwritten,
      delimit_lessEqual hupper.least_eq hfull build⟩
  | false =>
    have hfits := (Partial.floor?_eq_some_iff.mp hupper.least_eq).1
    have hnone := Partial.after?_eq_none_iff hfits (mt Partial.numbers_eq_nil_iff.mp hany)
    have hbound := upperBound?_of_partial hfits hfull hany
    cases hafter : range.upper.after? with
    | none => exact .inl ⟨⟨rfl, hnone.mp hafter⟩, by rw [hbound, hafter]; rfl⟩
    | some release =>
      have hread : Version.read? release.opening.text = some release.opening :=
        Version.read?_text release.wellFormed_opening rfl
      have hkept : (bound .less release.opening).isAtLeastZero = false := rfl
      refine .inr ⟨fun hlimit => ?_, some (.ofVersion .less rfl _ _ hread hkept),
        by rw [hbound, hafter]; rfl, delimit_less_opening hupper.least_eq hfull hafter⟩
      rw [hnone.mpr hlimit.2] at hafter
      cases hafter

end Ends

/-! ### Reading a hyphen range -/

def IsGap (text : Text) : Prop :=
  text ≠ [] ∧ ∀ c ∈ text, isBlank c = true

section Read

variable {lowerText upperText before after : Text} {lower upper : Partial} {base top : Version}

theorem spanVersion_append_gap (hlower : IsEnd lowerText lower base) (hbefore : IsGap before)
    (more : Text) : spanVersion (lowerText ++ (before ++ more)) = (lowerText, before ++ more) := by
  have hbody : (lowerText ++ (before ++ more)).dropWhile Partial.isLead =
      lowerText.dropWhile Partial.isLead ++ (before ++ more) := by
    have hne := Partial.dropWhile_ne_nil_of_read? hlower.reads
    rw [List.dropWhile_append, if_neg (by simpa using hne)]
  have hsecond : (spanVersion (lowerText ++ (before ++ more))).2 = before ++ more := by
    have hsolid : ∀ c ∈ lowerText.dropWhile Partial.isLead, (!isBlank c) = true := by
      intro c hc
      simp [hlower.isToken.2 c ((List.dropWhile_suffix _).mem hc)]
    obtain ⟨first, rest, rfl⟩ := List.exists_cons_of_ne_nil hbefore.1
    have hfirst : isBlank first = true := hbefore.2 first (by simp)
    rw [spanVersion, hbody, List.dropWhile_append_of_pos hsolid]
    simp [hfirst]
  have hparts := spanVersion_append (lowerText ++ (before ++ more))
  rw [hsecond] at hparts
  exact Prod.ext (List.append_cancel_right hparts) hsecond

theorem afterHyphen?_gap (hupper : IsEnd upperText upper top) (hbefore : IsGap before)
    (hafter : IsGap after) : afterHyphen? (before ++ '-' :: (after ++ upperText)) =
      some upperText := by
  obtain ⟨first, rest, rfl⟩ := List.exists_cons_of_ne_nil hafter.1
  obtain ⟨hfirst, hrest⟩ := List.forall_mem_cons.mp hafter.2
  have hstart : trimStart (before ++ '-' :: first :: (rest ++ upperText)) =
      '-' :: first :: (rest ++ upperText) := by
    rw [trimStart_append_of_blank hbefore.2, trimStart_cons_of_not_blank (by decide)]
  have hend : trimStart (rest ++ upperText) = upperText := by
    rw [trimStart_append_of_blank hrest]
    exact trimStart_eq_self fun c hc => hupper.isToken.2 c (List.mem_of_mem_head? hc)
  have hshorter : 0 < before.length := List.length_pos_of_ne_nil hbefore.1
  rw [List.cons_append, afterHyphen?, hstart]
  simp [hend, hfirst, hshorter]

section Alternative

variable (hlower : IsEnd lowerText lower base) (hupper : IsEnd upperText upper top)
  (hbefore : IsGap before) (hafter : IsGap after)

include hlower hupper

theorem isTrimmed_alternative :
    IsTrimmed (lowerText ++ (before ++ '-' :: (after ++ upperText))) := by
  have hends : lowerText ++ (before ++ '-' :: (after ++ upperText)) =
      (lowerText ++ before ++ '-' :: after) ++ upperText := by simp
  refine ⟨by simp, ?_, ?_⟩
  · rw [List.head?_append_of_ne_nil _ hlower.isToken.1]
    exact hlower.isToken.isTrimmed.head
  · rw [hends, List.getLast?_append_of_ne_nil _ hupper.isToken.1]
    exact hupper.isToken.isTrimmed.last

include hbefore hafter

theorem bar_not_mem_alternative :
    '|' ∉ lowerText ++ (before ++ '-' :: (after ++ upperText)) := by
  have hfirst : '|' ∉ lowerText := Partial.not_mem_of_read? hlower.reads (by decide) (by decide)
  have hsecond : '|' ∉ upperText := Partial.not_mem_of_read? hupper.reads (by decide) (by decide)
  have hgaps : '|' ∉ before ∧ '|' ∉ after :=
    ⟨not_mem_of_class hbefore.2 (by decide), not_mem_of_class hafter.2 (by decide)⟩
  simp [hfirst, hsecond, hgaps]

/-- Two ends with a hyphen between blanks are read as a hyphen range. -/
theorem read?_alternative :
    read? (lowerText ++ (before ++ '-' :: (after ++ upperText))) =
      some ⟨lowerText, lower, upperText, upper⟩ := by
  have hspan := spanVersion_append_gap hlower hbefore ('-' :: (after ++ upperText))
  simp [read?, hspan, afterHyphen?_gap hupper hbefore hafter, hlower.reads, hupper.reads]

end Alternative

end Read

end HyphenRange

namespace Range

open Comparator HyphenRange

/-- A hyphen range is written out as its bounds, and read again these delimit what is between
its ends. -/
theorem readAlternative_hyphen {alternative : Text} {range : HyphenRange}
    (hread : HyphenRange.read? alternative = some range) {base top : Version}
    (hlower : IsEnd range.lowerText range.lower base)
    (hupper : IsEnd range.upperText range.upper top)
    (hzero : range.lower ≠ .any → base ≠ ⟨0, 0, 0, [], []⟩) :
    (range.upper.isFull = false ∧ range.upper.numbers.getLast? = some maxWord) ∧
        readAlternative alternative = .error (.invalidComparator alternative) ∨
      ¬ (range.upper.isFull = false ∧ range.upper.numbers.getLast? = some maxWord) ∧
        ∃ comparators, readAlternative alternative = .ok comparators ∧ ∀ v : Version,
          testAll comparators v = true ↔ (IsFrom range.lower base v ∧ IsUpTo range.upper top v) ∧
            (v.isPrerelease = true → Names range.lower base v ∨ Names range.upper top v) := by
  obtain ⟨lower?, hlowerBound, hfrom⟩ := exists_lower hlower hzero
  rcases upperBound?_cases hupper with ⟨hlimit, hnone⟩ | ⟨hlimit, upper?, hupperBound, hupTo⟩
  · have hexpand : Normal.expandHyphen alternative = .error (.invalidComparator alternative) := by
      simp [Normal.expandHyphen, hread, bounds?, hnone]
    refine .inl ⟨hlimit, ?_⟩
    rw [readAlternative, Normal.ofAlternative, hexpand]
    rfl
  · have hexpand : Normal.expandHyphen alternative =
        .ok (joinWith [' '] ((lower?.toList ++ upper?.toList).map Written.text)) := by
      simp only [Normal.expandHyphen, hread, bounds?, hupperBound, hlowerBound, Option.bind_eq_bind,
        Option.bind_some, trim_boundTexts]
      rfl
    obtain ⟨comparators, hcomparators, hsame⟩ := exists_readAlternative_written hexpand
    refine .inr ⟨hlimit, comparators, hcomparators, fun v => ?_⟩
    have hdelimit := hfrom.append hupTo
    rw [← List.map_append] at hdelimit
    rw [hsame, hdelimit.testAll_iff]

/-- A hyphen range is refused exactly if its upper end is partial and the last number of it cannot
be raised, and then the error names the alternative without the blanks around it.  Else it accepts
the releases between its ends, and of the prereleases between them those of the release of an end
that is a prerelease itself. -/
theorem hyphen_range_accepts_between {front lowerText before after upperText back : Text}
    (hfront : ∀ c ∈ front, isBlank c = true) (hbefore : IsGap before) (hafter : IsGap after)
    (hback : ∀ c ∈ back, isBlank c = true) {lower upper : Partial} {base top : Version}
    (hlower : IsEnd lowerText lower base) (hupper : IsEnd upperText upper top)
    (hzero : lower ≠ .any → base ≠ ⟨0, 0, 0, [], []⟩) :
    let alternative := lowerText ++ (before ++ '-' :: (after ++ upperText))
    (∀ error, read (front ++ (alternative ++ back)) = .error error ↔
        error = .invalidComparator alternative ∧
          upper.isFull = false ∧ upper.numbers.getLast? = some maxWord) ∧
      (¬ (upper.isFull = false ∧ upper.numbers.getLast? = some maxWord) →
        ∃ range, read (front ++ (alternative ++ back)) = .ok range ∧ ∀ v : Version,
          range.test v = true ↔ (IsFrom lower base v ∧ IsUpTo upper top v) ∧
            (v.isPrerelease = true → Names lower base v ∨ Names upper top v)) := by
  intro alternative
  have hread : HyphenRange.read? alternative = some ⟨lowerText, lower, upperText, upper⟩ :=
    read?_alternative hlower hupper hbefore hafter
  have htexts : alternativeTexts (front ++ (alternative ++ back)) = [alternative] := by
    have hbar : '|' ∉ front ++ (alternative ++ back) := by
      have hmiddle : '|' ∉ alternative := bar_not_mem_alternative hlower hupper hbefore hafter
      have hends : '|' ∉ front ∧ '|' ∉ back :=
        ⟨not_mem_of_class hfront (by decide), not_mem_of_class hback (by decide)⟩
      simp [hmiddle, hends]
    rw [alternativeTexts_eq_singleton hbar,
      trim_append hfront (isTrimmed_alternative hlower hupper) hback]
  rw [read_eq_of_singleton htexts]
  rcases readAlternative_hyphen hread hlower hupper hzero with
    ⟨hlimit, hrefused⟩ | ⟨hlimit, comparators, hcomparators, haccepts⟩
  · refine ⟨fun error => ?_, fun hnot => absurd hlimit hnot⟩
    rw [hrefused]
    simp [Except.map, hlimit, eq_comm]
  · refine ⟨fun error => ?_, fun _ => ⟨_, congrArg _ hcomparators, fun v => ?_⟩⟩
    · rw [hcomparators]
      simp [Except.map, hlimit]
    · rw [← haccepts v]
      simp [Range.test]

/-- The prerelease of the lower end is not cut at its `v`, and its build counts for nothing. -/
theorem hyphen_range_accepts_between_sample :
    let lowerText := "v1.2.3-0v+b".toList
    let lower := Partial.full 1 2 3 ["0v".toList]
    let base : Version := ⟨1, 2, 3, [.textual "0v".toList], []⟩
    let upperText := "2.3".toList
    let top : Version := ⟨2, 3, 0, [], []⟩
    (∀ c ∈ [' '], isBlank c = true) ∧ IsGap [' '] ∧ IsGap [' ', ' '] ∧
      IsEnd lowerText lower base ∧ IsEnd upperText (.minor 2 3) top ∧
        (lower ≠ .any → base ≠ ⟨0, 0, 0, [], []⟩) ∧
          ∃ range, read " v1.2.3-0v+b -  2.3 ".toList = .ok range ∧ range.test base = true ∧
            range.test ⟨2, 3, 9, [], []⟩ = true ∧ range.test ⟨2, 4, 0, [], []⟩ = false ∧
              range.test ⟨2, 3, 0, [.numeric 0], []⟩ = false := by
  intro lowerText lower base upperText top
  have hblank : ∀ c ∈ [' '], isBlank c = true := isBlank_of_all (by decide)
  have hbefore : IsGap [' '] := ⟨by decide, hblank⟩
  have hafter : IsGap [' ', ' '] := ⟨by decide, isBlank_of_all (by decide)⟩
  have hlower : IsEnd lowerText lower base :=
    ⟨.inr (by decide), by decide, by decide⟩
  have hupper : IsEnd upperText (.minor 2 3) top :=
    ⟨.inl (by decide), by decide, by decide⟩
  have hzero : lower ≠ .any → base ≠ ⟨0, 0, 0, [], []⟩ := by decide
  obtain ⟨range, hread, haccepts⟩ :=
    (hyphen_range_accepts_between hblank hbefore hafter hblank hlower hupper hzero).2
      (by decide)
  refine ⟨hblank, hbefore, hafter, hlower, hupper, hzero, range, hread, ?_, ?_, ?_, ?_⟩
  · rw [haccepts]
    decide
  · rw [haccepts]
    decide
  · rw [← Bool.not_eq_true, haccepts]
    decide
  · rw [← Bool.not_eq_true, haccepts]
    decide

end Range

end SemanticVersions
