import Mathlib.Data.List.TakeWhile
import SemanticVersions.Proofs.Comparator.Format
import SemanticVersions.Range.Spacing

/-!
# Texts whose operators are in place

Moving operators up to their versions changes nothing in a text where no sign
has a blank behind it and no tilde, caret or star occurs.  Canonical texts are
of this kind, and each of these facts is local: it passes to every later part
of a text, so the rewriting steps can be followed from left to right.
-/

namespace SemanticVersions.Spacing

open Operator

/-- Whether no comparison sign has a blank behind it. -/
def SignsClosed : Text → Prop
  | [] => True
  | [_] => True
  | c :: d :: rest => (isSignChar c = true → isBlank d = false) ∧ SignsClosed (d :: rest)

theorem SignsClosed.tail {c : Char} {rest : Text} (hclosed : SignsClosed (c :: rest)) :
    SignsClosed rest := by
  cases rest with
  | nil => trivial
  | cons d rest => exact hclosed.2

theorem SignsClosed.suffix {text rest : Text} (hclosed : SignsClosed text)
    (hsuffix : rest <:+ text) : SignsClosed rest := by
  induction text with
  | nil =>
    rw [List.suffix_nil.mp hsuffix]
    trivial
  | cons c text ih =>
    cases List.suffix_cons_iff.mp hsuffix with
    | inl heq => rwa [heq]
    | inr htail => exact ih hclosed.tail htail

/-- Behind a sign there is no blank to drop. -/
theorem SignsClosed.trimStart_eq {c : Char} {rest : Text} (hclosed : SignsClosed (c :: rest))
    (hsign : isSignChar c = true) : trimStart rest = rest := by
  apply trimStart_eq_self
  intro d hd
  cases rest with
  | nil => cases hd
  | cons e rest =>
    obtain rfl : e = d := Option.some.inj hd
    exact hclosed.1 hsign

theorem signsClosed_of_no_blank {text : Text} (htext : ∀ c ∈ text, isBlank c = false) :
    SignsClosed text := by
  induction text with
  | nil => trivial
  | cons c rest ih =>
    have hrest := ih fun d hd => htext d (by simp [hd])
    cases rest with
    | nil => trivial
    | cons d rest => exact ⟨fun _ => htext d (by simp), hrest⟩

/-- Texts with closed signs can be put together unless the first one ends in a sign. -/
theorem SignsClosed.append {front back : Text} (hfront : SignsClosed front)
    (hback : SignsClosed back) (hlast : ∀ c ∈ front.getLast?, isSignChar c = false) :
    SignsClosed (front ++ back) := by
  induction front with
  | nil => exact hback
  | cons c front ih =>
    cases front with
    | nil =>
      have hc : isSignChar c = false := hlast c rfl
      cases back with
      | nil => trivial
      | cons d back => exact ⟨by simp [hc], hback⟩
    | cons d front =>
      have hlastTail : ∀ e ∈ (d :: front).getLast?, isSignChar e = false := by
        intro e he
        apply hlast e
        rwa [List.getLast?_cons_cons]
      exact ⟨hfront.1, ih hfront.2 hlastTail⟩

/-! ### Comparison signs -/

theorem before_append {text rest : Text} (hsuffix : rest <:+ text) :
    before text rest ++ rest = text := by
  obtain ⟨front, rfl⟩ := hsuffix
  simp [before]

theorem trimStart_spanSign {text : Text} (hclosed : SignsClosed text)
    (hhead : trimStart text = text) : trimStart (spanSign text).2 = (spanSign text).2 := by
  unfold spanSign
  split
  · exact hclosed.tail.trimStart_eq (by decide)
  · exact hclosed.tail.trimStart_eq (by decide)
  · exact hclosed.trimStart_eq (by decide)
  · exact hclosed.trimStart_eq (by decide)
  · exact hclosed.trimStart_eq (by decide)
  · exact hhead

theorem trimStart_trimStart (text : Text) : trimStart (trimStart text) = trimStart text := by
  apply trimStart_eq_self
  intro c hc
  have hhead := List.head?_dropWhile_not isBlank text
  rw [show text.dropWhile isBlank = trimStart text from rfl, hc] at hhead
  simpa using hhead

/-- The parts of an operand make up the text again. -/
theorem operand?_append {text head version rest : Text} (hclosed : SignsClosed text)
    (hoperand : operand? text = some (head, version, rest)) :
    head ++ version ++ rest = text := by
  obtain ⟨behind, hbehind, hresult⟩ := Option.bind_eq_some_iff.mp hoperand
  cases hresult
  have hsuffix := (Operand.afterVersion?_isBehind hbehind).1
  have hstart : SignsClosed (trimStart text) := hclosed.suffix (trimStart_suffix text)
  have hversion := trimStart_spanSign hstart (trimStart_trimStart text)
  rw [List.append_assoc, before_append hsuffix, hversion, List.append_assoc, spanSign_append]
  exact List.takeWhile_append_dropWhile

theorem operand?_suffix {text head version rest : Text}
    (hoperand : operand? text = some (head, version, rest)) : rest <:+ text := by
  obtain ⟨behind, hbehind, hresult⟩ := Option.bind_eq_some_iff.mp hoperand
  cases hresult
  have hsign : (spanSign (trimStart text)).2 <:+ trimStart text :=
    ⟨_, spanSign_append (trimStart text)⟩
  have hversion : rest <:+ (spanSign (trimStart text)).2 :=
    (Operand.afterVersion?_isBehind hbehind).1.trans (trimStart_suffix _)
  exact (hversion.trans hsign).trans (trimStart_suffix text)

/-- The search for signs leaves a text in which all signs are closed. -/
theorem closeSigns_eq_self {text : Text} (hclosed : SignsClosed text) :
    closeSigns text = text := by
  fun_induction closeSigns text with
  | case1 => rfl
  | case2 c tail head version rest hoperand ih =>
    rw [ih (hclosed.suffix (operand?_suffix hoperand))]
    exact operand?_append hclosed hoperand
  | case3 c tail hnone ih => rw [ih hclosed.tail]

/-! ### Tildes, carets and stars -/

theorem closeGaps_eq_self {mark : Char} {text : Text} (htext : mark ∉ text) :
    closeGaps mark false text = text := by
  induction text with
  | nil => rfl
  | cons c rest ih =>
    obtain ⟨hc, hrest⟩ := not_or.mp (mt List.mem_cons.mpr htext)
    have hmark : (c == mark) = false := by simpa using Ne.symm hc
    simp [closeGaps, hmark, ih hrest]

theorem shortenTildes_eq_self {text : Text} (htext : '~' ∉ text) : shortenTildes text = text := by
  fun_induction shortenTildes text with
  | case1 c rest hblank ih => simp at htext
  | case2 c rest hblank ih => simp at htext
  | case3 c rest hother ih => rw [ih fun hmem => htext (List.mem_cons_of_mem c hmem)]
  | case4 => rfl

/-- A text with closed signs and no tilde or caret stays as it is. -/
theorem close_eq_self {text : Text} (hclosed : SignsClosed text) (htilde : '~' ∉ text)
    (hcaret : '^' ∉ text) : close text = text := by
  rw [close, closeSigns_eq_self hclosed, closeTildes, shortenTildes_eq_self htilde,
    closeGaps_eq_self htilde, closeCarets, closeGaps_eq_self hcaret]

theorem closeGaps_of_no_blank {mark : Char} {inGap : Bool} {text : Text}
    (htext : ∀ c ∈ text, isBlank c = false) : closeGaps mark inGap text = text := by
  induction text generalizing inGap with
  | nil => rfl
  | cons c rest ih =>
    obtain ⟨hc, hrest⟩ := List.forall_mem_cons.mp htext
    simp [closeGaps, hc, ih hrest]

theorem shortenTildes_of_no_blank {text : Text} (htext : ∀ c ∈ text, isBlank c = false) :
    shortenTildes text = text := by
  fun_induction shortenTildes text with
  | case1 c rest hblank ih =>
    rw [htext c (by simp)] at hblank
    cases hblank
  | case2 c rest hblank ih => rw [ih fun d hd => htext d (by simp [List.mem_cons.mp hd])]
  | case3 c rest hother ih => rw [ih fun d hd => htext d (List.mem_cons_of_mem c hd)]
  | case4 => rfl

/-- Nothing is closed in a text without blanks. -/
theorem close_of_no_blank {text : Text} (htext : ∀ c ∈ text, isBlank c = false) :
    close text = text := by
  rw [close, closeSigns_eq_self (signsClosed_of_no_blank htext), closeTildes,
    shortenTildes_of_no_blank htext, closeGaps_of_no_blank htext, closeCarets,
    closeGaps_of_no_blank htext]

theorem afterOne_parts (first second : Char) (text : Text) :
    ∃ sign, sign ++ afterOne first second text = text ∧ ∀ c ∈ sign, c = first ∨ c = second := by
  cases text with
  | nil => exact ⟨[], rfl, by simp⟩
  | cons c rest =>
    by_cases hc : c = first ∨ c = second
    · exact ⟨[c], by simp [afterOne, hc], by simpa using hc⟩
    · exact ⟨[], by simp [afterOne, hc], by simp⟩

/-- In front of a dropped star there are signs and blanks only. -/
theorem afterStar?_parts {text rest : Text} (hafter : afterStar? text = some rest) :
    ∃ dropped, text = dropped ++ '*' :: rest ∧
      ∀ c ∈ dropped, Operator.isSignChar c = true ∨ isBlank c = true := by
  obtain ⟨angle, hangle, hangles⟩ := afterOne_parts '<' '>' text
  obtain ⟨equals, hequals, hequal⟩ := afterOne_parts '=' '=' (afterOne '<' '>' text)
  unfold afterStar? at hafter
  split at hafter
  · next behind hstart =>
    cases hafter
    have hblanks : (afterOne '=' '=' (afterOne '<' '>' text)).takeWhile isBlank ++ '*' :: rest =
        afterOne '=' '=' (afterOne '<' '>' text) := by
      rw [← hstart]
      exact List.takeWhile_append_dropWhile
    refine ⟨angle ++ (equals ++ (afterOne '=' '=' (afterOne '<' '>' text)).takeWhile isBlank),
      ?_, ?_⟩
    · rw [List.append_assoc, List.append_assoc, hblanks, hequals, hangle]
    · intro c hc
      simp only [List.mem_append] at hc
      rcases hc with hc | hc | hc
      · left
        rcases hangles c hc with rfl | rfl <;> rfl
      · left
        rcases hequal c hc with rfl | rfl <;> rfl
      · exact .inr (List.mem_takeWhile_imp hc)
  · cases hafter

theorem dropStars_eq_self {text : Text} (htext : '*' ∉ text) : dropStars text = text := by
  fun_induction dropStars text with
  | case1 => rfl
  | case2 c tail rest hstar ih =>
    obtain ⟨dropped, hparts, _⟩ := afterStar?_parts hstar
    rw [hparts] at htext
    exact absurd (by simp) htext
  | case3 c tail hnone ih => rw [ih fun hmem => htext (List.mem_cons_of_mem c hmem)]

theorem mem_of_mem_dropStars {text : Text} {c : Char} (hc : c ∈ dropStars text) : c ∈ text := by
  fun_induction dropStars text with
  | case1 => cases hc
  | case2 d tail rest hstar ih =>
    obtain ⟨dropped, hparts, _⟩ := afterStar?_parts hstar
    rw [hparts]
    simp [ih hc]
  | case3 d tail hnone ih =>
    rcases List.mem_cons.mp hc with rfl | htail
    · exact List.mem_cons_self
    · exact List.mem_cons_of_mem d (ih htail)

end SemanticVersions.Spacing
