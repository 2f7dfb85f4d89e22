import Mathlib.Data.List.Basic
import Mathlib.Data.List.TakeWhile
import SemanticVersions.Proofs.Range.Spacing
import SemanticVersions.Range.Reader

/-!
# Hyphens that name no prerelease

In a text that names no prerelease every hyphen has a blank behind it.  Writing out a
shorthand or a hyphen range brings in further hyphens, but only those of bounds `<X-0`,
so this is the property that is followed: each hyphen has a blank behind it or ends such
a bound.  It holds of the parts between blanks, of texts with blanks between them, and of
what is left when blanks are dropped behind a mark or stars out of a token.
-/

namespace SemanticVersions

/-! ### Hyphens -/

/-- Whether each hyphen of a text that something follows has a blank behind it. -/
def HyphensOpen (text : Text) : Prop :=
  ∀ c, ['-', c] <:+: text → isBlank c = true

theorem HyphensOpen.of_isInfix {text part : Text} (htext : HyphensOpen text)
    (hpart : part <:+: text) : HyphensOpen part :=
  fun c hc => htext c (hc.trans hpart)

theorem HyphensOpen.cons {text : Text} (htext : HyphensOpen text) {c : Char} (hc : c ≠ '-') :
    HyphensOpen (c :: text) := by
  intro d hd
  rcases List.infix_cons_iff.mp hd with hprefix | hinfix
  · exact absurd (List.cons_prefix_cons.mp hprefix).1.symm hc
  · exact htext d hinfix

def EndsInLess (text : Text) : Prop :=
  ∃ release, '<' :: release <:+ text ∧ ∀ c ∈ release, c.isDigit = true ∨ c = '.'

/-- Whether a character can stand neither in a release nor in front of one as the sign
`<`. -/
def partsReleases (c : Char) : Bool :=
  !(c.isDigit || c == '.' || c == '<')

theorem EndsInLess.prepend {text : Text} (htext : EndsInLess text) (front : Text) :
    EndsInLess (front ++ text) := by
  obtain ⟨release, hsuffix, hrelease⟩ := htext
  exact ⟨release, hsuffix.trans (List.suffix_append front text), hrelease⟩

theorem EndsInLess.behind {front text : Text} {c : Char} (hends : EndsInLess (front ++ c :: text))
    (hc : partsReleases c = true) : EndsInLess text := by
  obtain ⟨release, hsuffix, hrelease⟩ := hends
  refine ⟨release, ?_, hrelease⟩
  rcases List.suffix_or_suffix_of_suffix hsuffix (List.suffix_append front (c :: text)) with
    hshort | hlong
  · rcases List.suffix_cons_iff.mp hshort with heq | hsuffix
    · rw [← (List.cons.inj heq).1] at hc
      exact absurd hc (by decide)
    · exact hsuffix
  · have hmem : c ∈ '<' :: release := hlong.mem List.mem_cons_self
    have hout : c ≠ '<' ∧ ¬ (c.isDigit = true ∨ c = '.') := by
      simpa [partsReleases, and_comm, and_assoc, and_left_comm] using hc
    rcases List.mem_cons.mp hmem with heq | hmem
    · exact absurd heq hout.1
    · exact absurd (hrelease c hmem) hout.2

theorem EndsInLess.mem {text : Text} (hends : EndsInLess text) : '<' ∈ text := by
  obtain ⟨release, hsuffix, _⟩ := hends
  exact hsuffix.mem List.mem_cons_self

/-- Whether each hyphen of a text has a blank behind it or belongs to a bound `<X-0`. -/
def Unasking (text : Text) : Prop :=
  ∀ front c back, text = front ++ '-' :: c :: back →
    isBlank c = true ∨ c = '0' ∧ (∀ d ∈ back.head?, isBlank d = true) ∧ EndsInLess front

/-- Where all hyphens are open none belongs to a prerelease. -/
theorem HyphensOpen.unasking {text : Text} (htext : HyphensOpen text) : Unasking text := by
  rintro front c back rfl
  exact .inl (htext c ⟨front, back, by simp⟩)

/-- Without a sign `<` a hyphen cannot end a bound `<X-0`. -/
theorem Unasking.hyphensOpen {text : Text} (htext : Unasking text) (hless : '<' ∉ text) :
    HyphensOpen text := by
  rintro c ⟨front, back, rfl⟩
  rcases htext front c back (by simp) with hblank | ⟨_, _, hends⟩
  · exact hblank
  · exact absurd (by simp [hends.mem]) hless

theorem unasking_of_not_mem {text : Text} (htext : '-' ∉ text) : Unasking text := by
  rintro front c back rfl
  simp at htext

theorem Unasking.of_isPrefix {text part : Text} (htext : Unasking text) (hpart : part <+: text) :
    Unasking part := by
  obtain ⟨later, rfl⟩ := hpart
  rintro front c back rfl
  have hwhole := htext front c (back ++ later) (by simp)
  refine hwhole.imp_right fun ⟨hzero, hhead, hends⟩ => ⟨hzero, ?_, hends⟩
  intro d hd
  exact hhead d (by simp_all)

theorem Unasking.behind {front text : Text} {c : Char} (htext : Unasking (front ++ c :: text))
    (hc : partsReleases c = true) : Unasking text := by
  rintro left d right rfl
  have hwhole := htext (front ++ c :: left) d right (by simp)
  exact hwhole.imp_right fun ⟨hzero, hhead, hends⟩ => ⟨hzero, hhead, hends.behind hc⟩

/-- Whether a text can be dropped behind `front`: the seam does not bring something new
behind a hyphen or the zero of a bound `<X-0`. -/
def DropsBehind (front dropped : Text) : Prop :=
  (∀ c ∈ front.getLast?, c ≠ '-' ∧ c ≠ '0') ∨
    ∀ c ∈ dropped.head?, isBlank c = false ∧ c ≠ '0'

/-- What is dropped has a character at its end that parts releases. -/
theorem Unasking.drop {front back : Text} (dropped : Text) {last : Char}
    (htext : Unasking (front ++ (dropped ++ [last]) ++ back)) (hlast : partsReleases last = true)
    (hseam : DropsBehind front (dropped ++ [last])) : Unasking (front ++ back) := by
  obtain ⟨first, later, hdropped⟩ := List.exists_cons_of_ne_nil
    (List.append_ne_nil_of_right_ne_nil dropped (List.cons_ne_nil last []))
  -- A hyphen in what follows keeps all that counts of what stands in front of it.
  have hlater : ∀ left c right, back = left ++ '-' :: c :: right → isBlank c = true ∨
      c = '0' ∧ (∀ d ∈ right.head?, isBlank d = true) ∧ EndsInLess (front ++ left) := by
    rintro left c right rfl
    have hwhole := htext (front ++ dropped ++ last :: left) c right (by simp)
    exact hwhole.imp_right fun ⟨hzero, hhead, hends⟩ =>
      ⟨hzero, hhead, (hends.behind hlast).prepend front⟩
  rw [hdropped] at htext hseam
  intro left c right htext'
  rcases List.append_eq_append_iff.mp htext' with ⟨middle, rfl, hback⟩ | ⟨middle, rfl, hright⟩
  · exact hlater middle c right hback
  match middle with
  | [] =>
    have hends := hlater [] c right hright.symm
    simpa using hends
  | [hyphen] =>
    obtain ⟨rfl, rfl⟩ : '-' = hyphen ∧ c :: right = back := by simpa using hright
    have hfirst := htext left first (later ++ c :: right) (by simp)
    rcases hseam with hfront | hdrop
    · exact absurd rfl (hfront '-' (by simp)).1
    · obtain ⟨hblank, hzero⟩ := hdrop first rfl
      simp [hblank, hzero] at hfirst
  | hyphen :: d :: middle =>
    obtain ⟨rfl, rfl, rfl⟩ : '-' = hyphen ∧ c = d ∧ right = middle ++ back := by simpa using hright
    have hwhole := htext left c (middle ++ first :: later ++ back) (by simp)
    refine hwhole.imp_right fun ⟨hzero, hhead, hends⟩ => ⟨hzero, ?_, hends⟩
    cases middle with
    | cons e middle => exact hhead
    | nil =>
      have hblank : isBlank first = true := hhead first rfl
      rcases hseam with hfront | hdrop
      · exact absurd hzero (hfront c (by simp)).2
      · rw [(hdrop first rfl).1] at hblank
        cases hblank

/-- Texts with a blank between them. -/
theorem Unasking.append_blank {left right : Text} (hleft : Unasking left)
    (hright : Unasking right) {blank : Char} (hblank : isBlank blank = true) :
    Unasking (left ++ blank :: right) := by
  have hhyphen : blank ≠ '-' := by
    rintro rfl
    exact absurd hblank (by decide)
  intro front c back htext
  rcases List.append_eq_append_iff.mp htext with ⟨middle, rfl, hback⟩ | ⟨middle, rfl, hmiddle⟩
  · cases middle with
    | nil => exact absurd (List.cons.inj hback).1 hhyphen
    | cons d middle =>
      have hlater := hright middle c back (List.cons.inj hback).2
      exact hlater.imp_right fun ⟨hzero, hhead, hends⟩ =>
        ⟨hzero, hhead, by simpa using hends.prepend (left ++ [d])⟩
  · match middle with
    | [] => exact absurd (List.cons.inj hmiddle).1.symm hhyphen
    | [hyphen] =>
      obtain ⟨-, rfl, -⟩ : '-' = hyphen ∧ c = blank ∧ back = right := by simpa using hmiddle
      exact .inl hblank
    | hyphen :: d :: middle =>
      obtain ⟨rfl, rfl, rfl⟩ : '-' = hyphen ∧ c = d ∧ back = middle ++ blank :: right := by
        simpa using hmiddle
      refine (hleft front c middle rfl).imp_right fun ⟨hzero, hhead, hends⟩ => ⟨hzero, ?_, hends⟩
      cases middle with
      | nil => simpa using hblank
      | cons e middle => exact hhead

theorem unasking_joinWith {pieces : List Text} (hpieces : ∀ piece ∈ pieces, Unasking piece) :
    Unasking (joinWith [' '] pieces) := by
  induction pieces with
  | nil => exact unasking_of_not_mem (by simp [joinWith, List.intercalate_nil])
  | cons first pieces ih =>
    have hfirst := hpieces first (by simp)
    have hrest := ih fun piece hpiece => hpieces piece (by simp [hpiece])
    cases pieces with
    | nil => rwa [joinWith_singleton]
    | cons second pieces =>
      rw [joinWith_cons_cons, List.append_assoc]
      exact hfirst.append_blank hrest (by decide)

theorem partsReleases_of_isBlank {c : Char} (hblank : isBlank c = true) :
    partsReleases c = true := by
  have hdigit : c.isDigit = false := by
    cases hdigit : c.isDigit with
    | false => rfl
    | true =>
      rw [not_isBlank_of_isIdentifierChar (isIdentifierChar_of_isDigit hdigit)] at hblank
      cases hblank
  have hpoint : c ≠ '.' := ne_of_class hblank (by decide)
  have hless : c ≠ '<' := ne_of_class hblank (by decide)
  simp [partsReleases, hdigit, hpoint, hless]

theorem Unasking.trimStart {text : Text} (htext : Unasking text) : Unasking (trimStart text) := by
  induction text with
  | nil => exact htext
  | cons c rest ih =>
    by_cases hc : isBlank c = true
    · rw [trimStart_cons_of_blank hc]
      have hrest : Unasking ([] ++ c :: rest) := htext
      exact ih (hrest.behind (partsReleases_of_isBlank hc))
    · rwa [trimStart_cons_of_not_blank (Bool.eq_false_iff.mpr hc)]

theorem Unasking.trim {text : Text} (htext : Unasking text) : Unasking (trim text) :=
  htext.trimStart.of_isPrefix (trimEnd_isPrefix _)

/-- The tokens of a text ask for no prerelease if the text does not. -/
theorem Unasking.of_mem_splitBlanks {text piece : Text} (htext : Unasking text)
    (hmem : piece ∈ splitBlanks text) : Unasking piece := by
  rcases mem_splitBlanks hmem with hprefix | ⟨front, blank, back, rfl, hblank⟩
  · exact htext.of_isPrefix hprefix
  · have hrest := htext.behind (partsReleases_of_isBlank hblank)
    exact hrest.of_isPrefix (List.prefix_append piece back)

/-! ### Moving operators up to their versions -/

namespace Spacing

/-- Blanks behind a mark can be dropped. -/
theorem unasking_dropGap {front back : Text} (gap : Text)
    (htext : Unasking (front ++ gap ++ back))
    (hgap : ∀ c ∈ gap, isBlank c = true)
    (hmark : gap = [] ∨ ∀ c ∈ front.getLast?, c ≠ '-' ∧ c ≠ '0') : Unasking (front ++ back) := by
  rcases List.eq_nil_or_concat' gap with rfl | ⟨init, last, rfl⟩
  · simpa using htext
  · have hlast := partsReleases_of_isBlank (hgap last (by simp))
    exact htext.drop init hlast (.inl (hmark.resolve_left (by simp)))

theorem unasking_closeGaps {mark : Char} (hhyphen : mark ≠ '-') (hzero : mark ≠ '0')
    (front : Text) {inGap : Bool} (hfront : inGap = true → front.getLast? = some mark) {text : Text}
    (htext : Unasking (front ++ text)) : Unasking (front ++ closeGaps mark inGap text) := by
  induction text generalizing front inGap with
  | nil => exact htext
  | cons c rest ih =>
    rw [closeGaps]
    split
    · next hdrop =>
      rw [Bool.and_eq_true] at hdrop
      have hmark : ∀ d ∈ front.getLast?, d ≠ '-' ∧ d ≠ '0' := by
        intro d hd
        rw [hfront hdrop.1] at hd
        obtain rfl : mark = d := Option.some.inj hd
        exact ⟨hhyphen, hzero⟩
      apply ih front fun _ => hfront hdrop.1
      apply unasking_dropGap [c] _ (by simpa using hdrop.2) (.inr hmark)
      simpa using htext
    · have hlast : (c == mark) = true → (front ++ [c]).getLast? = some mark := by simp
      have hrest := ih (front ++ [c]) hlast (by simpa using htext)
      simpa using hrest

theorem unasking_shortenTildes (front : Text) {text : Text} (htext : Unasking (front ++ text)) :
    Unasking (front ++ shortenTildes text) := by
  fun_induction shortenTildes text generalizing front with
  | case1 c rest hblank ih =>
    have hshort : Unasking ((front ++ ['~']) ++ (c :: rest)) := by
      have hwhole : Unasking (front ++ ['~'] ++ ([] ++ ['>']) ++ c :: rest) := by simpa using htext
      exact hwhole.drop [] (by decide) (.inl (by simp))
    simpa using ih (front ++ ['~']) hshort
  | case2 c rest hblank ih => simpa using ih (front ++ ['~', '>']) (by simpa using htext)
  | case3 c rest hother ih => simpa using ih (front ++ [c]) (by simpa using htext)
  | case4 => exact htext

/-- An operand is a part of the text but for blanks behind its sign. -/
theorem operand?_gap {text head version rest : Text}
    (hoperand : operand? text = some (head, version, rest)) :
    ∃ gap, text = head ++ gap ++ (version ++ rest) ∧ (∀ c ∈ gap, isBlank c = true) ∧
      (gap = [] ∨ ∃ c ∈ head.getLast?, Operator.isSignChar c = true) := by
  obtain ⟨behind, hbehind, hresult⟩ := Option.bind_eq_some_iff.mp hoperand
  cases hresult
  have hsuffix := (Operand.afterVersion?_isBehind hbehind).1
  refine ⟨(spanSign (trimStart text)).2.takeWhile isBlank, ?_, ?_, ?_⟩
  · have hgap := takeWhile_append_trimStart (spanSign (trimStart text)).2
    have hblanks := takeWhile_append_trimStart text
    rw [before_append hsuffix, List.append_assoc, hgap, List.append_assoc, spanSign_append, hblanks]
  · exact fun c hc => List.mem_takeWhile_imp hc
  · by_cases hnone : (spanSign (trimStart text)).1 = []
    · left
      have hall := spanSign_append (trimStart text)
      rw [hnone, List.nil_append] at hall
      have hparts := takeWhile_append_trimStart (trimStart text)
      rw [trimStart_trimStart] at hparts
      rw [hall]
      exact List.append_left_eq_self.mp hparts
    · right
      refine ⟨_, ?_, (Operator.isSign_spanSign _).isSignChar (List.getLast_mem hnone)⟩
      rw [List.getLast?_append, List.getLast?_eq_some_getLast hnone]
      rfl

theorem unasking_closeSigns (front : Text) {text : Text} (htext : Unasking (front ++ text)) :
    Unasking (front ++ closeSigns text) := by
  fun_induction closeSigns text generalizing front with
  | case1 => exact htext
  | case2 c tail head version rest hoperand ih =>
    obtain ⟨gap, hparts, hgap, hmark⟩ := operand?_gap hoperand
    rw [hparts] at htext
    have hclosed : Unasking (front ++ head ++ (version ++ rest)) := by
      apply unasking_dropGap gap (by simpa using htext) hgap
      rcases hmark with hnone | ⟨sign, hlast, hsign⟩
      · exact .inl hnone
      · right
        intro d hd
        rw [List.getLast?_append, hlast, Option.some_or] at hd
        obtain rfl : sign = d := Option.some.inj hd
        exact ⟨ne_of_class hsign (by decide), ne_of_class hsign (by decide)⟩
    simpa using ih (front ++ head ++ version) (by simpa using hclosed)
  | case3 c tail hnone ih => simpa using ih (front ++ [c]) (by simpa using htext)

/-- Closing gaps brings nothing new behind a hyphen. -/
theorem unasking_close {text : Text} (htext : Unasking text) : Unasking (close text) := by
  have hsigns : Unasking (closeSigns text) := unasking_closeSigns [] htext
  have htildes : Unasking (closeTildes (closeSigns text)) :=
    unasking_closeGaps (by decide) (by decide) [] (by simp) (unasking_shortenTildes [] hsigns)
  exact unasking_closeGaps (by decide) (by decide) [] (by simp) htildes

/-! ### Dropping stars -/

/-- In a text without blanks no star has one in front of it. -/
theorem unasking_dropStars (front : Text) {text : Text}
    (hblanks : ∀ c ∈ text, isBlank c = false)
    (htext : Unasking (front ++ text)) : Unasking (front ++ dropStars text) := by
  fun_induction dropStars text generalizing front with
  | case1 => exact htext
  | case2 c tail rest hstar ih =>
    obtain ⟨dropped, hparts, hsigns⟩ := afterStar?_parts hstar
    rw [hparts] at hblanks htext
    apply ih front fun d hd => hblanks d (by simp [hd])
    refine Unasking.drop dropped (by simpa using htext) (by decide) (.inr fun d hd => ?_)
    have hmem : d ∈ dropped ++ ['*'] := List.mem_of_mem_head? hd
    have hblank : isBlank d = false := by
      apply hblanks
      rw [List.append_cons]
      exact List.mem_append_left rest hmem
    refine ⟨hblank, ?_⟩
    rintro rfl
    have hzero := hsigns '0' (by simpa using hmem)
    exact absurd hzero (by decide)
  | case3 c tail hnone ih =>
    have htail := ih (front ++ [c]) (fun d hd => hblanks d (by simp [hd]))
      (by simpa using htext)
    simpa using htail

end Spacing

end SemanticVersions
