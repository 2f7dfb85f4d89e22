import Mathlib.Data.List.TakeWhile
import SemanticVersions.Comparator
import SemanticVersions.Proofs.Version.Format

/-!
# The text format of comparators

A comparator that was read compares by a comparison sign with a well-formed
version, or has no condition.  Its canonical text reads as the same comparator
without the build of its version, so the text tells apart all that two
comparators can differ in but builds.
-/

namespace SemanticVersions

namespace Operator

/-- Whether an operator has a comparison sign, and so can be read in a range. -/
def hasSign : Operator → Bool
  | equal | greater | greaterEqual | less | lessEqual => true
  | notEqual | identical | different => false

/-- The sign at the head of a text always reads. -/
theorem read_spanSign (text : Text) :
    ∃ operator, read (spanSign text).1 = .ok operator ∧ operator.hasSign = true := by
  unfold spanSign
  split <;> exact ⟨_, rfl, rfl⟩

def IsSign (text : Text) : Prop :=
  text = [] ∨ text = ['<'] ∨ text = ['<', '='] ∨ text = ['>'] ∨ text = ['>', '='] ∨ text = ['=']

theorem isSign_spanSign (text : Text) : IsSign (spanSign text).1 := by
  unfold spanSign IsSign
  split <;> simp

def isSignChar (c : Char) : Bool :=
  c == '<' || c == '>' || c == '='

theorem isSignChar_eq_false_iff {c : Char} :
    isSignChar c = false ↔ c ≠ '<' ∧ c ≠ '>' ∧ c ≠ '=' := by
  simp [isSignChar, and_assoc]

theorem not_isSignChar_of_isVersionChar {c : Char} (hc : isVersionChar c = true) :
    isSignChar c = false :=
  isSignChar_eq_false_iff.mpr
    ⟨ne_of_class hc (by decide), ne_of_class hc (by decide), ne_of_class hc (by decide)⟩

theorem not_isSignChar_of_isBlank {c : Char} (hblank : isBlank c = true) :
    isSignChar c = false :=
  isSignChar_eq_false_iff.mpr
    ⟨ne_of_class hblank (by decide), ne_of_class hblank (by decide), ne_of_class hblank (by decide)⟩

theorem IsSign.isSignChar {text : Text} (htext : IsSign text) {c : Char} (hc : c ∈ text) :
    Operator.isSignChar c = true := by
  rcases htext with rfl | rfl | rfl | rfl | rfl | rfl <;>
    simp_all [Operator.isSignChar] <;> grind

theorem not_mem_of_spanSign {token : Text} {mark : Char} (hmark : isSignChar mark = false)
    (hbehind : mark ∉ (spanSign token).2) : mark ∉ token := by
  rw [← spanSign_append token, List.mem_append, not_or]
  exact ⟨not_mem_of_class (fun _ hc => (isSign_spanSign token).isSignChar hc) hmark,
    hbehind⟩

/-- Nothing but a sign character can make a sign longer. -/
theorem IsSign.spanSign_append {first text : Text} (hfirst : IsSign first)
    (hhead : ∀ c ∈ text.head?, Operator.isSignChar c = false) :
    spanSign (first ++ text) = (first, text) := by
  cases text with
  | nil => rcases hfirst with rfl | rfl | rfl | rfl | rfl | rfl <;> rfl
  | cons c rest =>
    obtain ⟨hless, hgreater, hequal⟩ := isSignChar_eq_false_iff.mp (hhead c rfl)
    rcases hfirst with rfl | rfl | rfl | rfl | rfl | rfl <;>
      simp [spanSign, hless, hgreater, hequal]

theorem isSign_text {operator : Operator} (hsign : operator.hasSign = true) :
    IsSign operator.text := by
  cases operator <;> simp_all [text, hasSign, IsSign]

theorem spanSign_text_append {operator : Operator} (hsign : operator.hasSign = true) {c : Char}
    (hdigit : c.isDigit = true) (rest : Text) :
    spanSign (operator.text ++ c :: rest) = (operator.text, c :: rest) := by
  apply (isSign_text hsign).spanSign_append
  intro d hd
  obtain rfl : c = d := Option.some.inj hd
  exact not_isSignChar_of_isVersionChar
    (isVersionChar_of_isIdentifierChar (isIdentifierChar_of_isDigit hdigit))

theorem isSignChar_of_mem_text {operator : Operator} (hsign : operator.hasSign = true) {c : Char}
    (hmem : c ∈ operator.text) : isSignChar c = true :=
  (isSign_text hsign).isSignChar hmem

end Operator

namespace Comparator

/-- Whether a comparator has no condition, or compares by a comparison sign with
a well-formed version. -/
def WellFormed : Comparator → Prop
  | any => True
  | bound operator version => operator.hasSign = true ∧ version.WellFormed

theorem WellFormed.hasSign_operator {c : Comparator} (hc : c.WellFormed) :
    c.operator.hasSign = true := by
  cases c with
  | any => rfl
  | bound operator version => exact hc.1

def withoutBuild : Comparator → Comparator
  | any => any
  | bound operator version => bound operator { version with build := [] }

@[simp]
theorem text_withoutBuild (c : Comparator) : c.withoutBuild.text = c.text := by
  cases c <;> rfl

/-- Only `<0.0.0-0`, with any build, is taken for a comparator that nothing satisfies. -/
theorem isNullSet_iff {c : Comparator} :
    c.isNullSet = true ↔ ∃ build, c = bound .less ⟨0, 0, 0, [.numeric 0], build⟩ := by
  unfold isNullSet
  split
  · next build => exact ⟨fun _ => ⟨build, rfl⟩, fun _ => rfl⟩
  · next hother =>
    refine ⟨fun hfalse => Bool.noConfusion hfalse, ?_⟩
    rintro ⟨build, rfl⟩
    exact absurd rfl (hother build)

theorem isNullSet_withoutBuild (c : Comparator) :
    c.withoutBuild.isNullSet = c.isNullSet := by
  cases c with
  | any => rfl
  | bound operator version =>
    rw [Bool.eq_iff_iff, isNullSet_iff, isNullSet_iff]
    cases version
    simp [withoutBuild]

theorem WellFormed.withoutBuild {c : Comparator} (hc : c.WellFormed) :
    c.withoutBuild.WellFormed := by
  cases c with
  | any => trivial
  | bound operator version => exact ⟨hc.1, hc.2.1, by simp⟩

theorem hasForm_of_read {text : Text} {c : Comparator} (hread : read text = .ok c) :
    hasForm text = true := by
  unfold read at hread
  split at hread
  · next hempty => rw [hasForm, hempty, Bool.true_or]
  · split at hread
    · next hform => rw [hasForm, hform, Bool.or_true]
    · cases hread

/-- A text in the form of a comparator has the characters of signs, blanks and versions only. -/
theorem not_mem_of_hasForm {text : Text} (hform : hasForm text = true) {mark : Char}
    (hmark : Operator.isSignChar mark = false) (hblank : isBlank mark = false)
    (hversion : isFullTextChar mark = false) : mark ∉ text := by
  rw [hasForm, Bool.or_eq_true, List.isEmpty_iff] at hform
  rcases hform with rfl | hform
  · simp
  · have hblanks := takeWhile_append_trimStart (spanSign text).2
    apply Operator.not_mem_of_spanSign hmark
    rw [← hblanks, List.mem_append, not_or]
    exact ⟨not_mem_of_class (fun _ hc => List.mem_takeWhile_imp hc) hblank,
      not_mem_of_class (fun _ hc => Version.isFullTextChar_of_hasForm hform hc) hversion⟩

/-- A comparator that was read is well-formed. -/
theorem wellFormed_of_read {text : Text} {c : Comparator} (hread : read text = .ok c) :
    c.WellFormed := by
  unfold read at hread
  split at hread
  · cases hread
    trivial
  · split at hread
    · obtain ⟨operator, hoperator, hsign⟩ := Operator.read_spanSign text
      rw [hoperator] at hread
      cases hversion : Version.read (operand text) with
      | error cause =>
        rw [hversion] at hread
        cases hread
      | ok version =>
        rw [hversion] at hread
        cases hread
        exact ⟨hsign, Version.wellFormed_of_read hversion⟩
    · cases hread

/-- A comparison that was read is put together from a sign and a version. -/
theorem bound_of_read {text : Text} {operator : Operator} {version : Version}
    (hread : read text = .ok (bound operator version)) :
    Operator.read (spanSign text).1 = .ok operator ∧
      Version.read (operand text) = .ok version := by
  unfold read at hread
  split at hread
  · cases hread
  · split at hread
    · obtain ⟨found, hfound, _⟩ := Operator.read_spanSign text
      cases hversion : Version.read (operand text) with
      | error cause =>
        rw [hfound, hversion] at hread
        cases hread
      | ok other =>
        rw [hfound, hversion] at hread
        cases hread
        exact ⟨hfound, rfl⟩
    · cases hread

/-- Nothing but a text that is no comparator or no version is at fault. -/
theorem cause_of_read {text : Text} {cause : Error} (hread : read text = .error cause) :
    cause = .invalidComparator text ∨ cause = .invalidVersion (operand text) := by
  unfold read at hread
  split at hread
  · cases hread
  · split at hread
    · obtain ⟨operator, hoperator, _⟩ := Operator.read_spanSign text
      rw [hoperator, Version.read] at hread
      right
      cases hversion : Version.read? (trim (operand text)) with
      | none =>
        rw [hversion] at hread
        exact (Except.error.inj hread).symm
      | some version =>
        rw [hversion] at hread
        cases hread
    · exact .inl (Except.error.inj hread).symm

theorem bound_text_eq (operator : Operator) (version : Version) :
    ∃ c rest, (bound operator version).text = operator.text ++ c :: rest ∧
      version.text = c :: rest ∧ c.isDigit = true := by
  obtain ⟨c, rest, htext, hdigit⟩ := Version.text_eq_cons version
  exact ⟨c, rest, by rw [text, htext], htext, hdigit⟩

/-- The text of a bound parts into its sign and its version. -/
theorem spanSign_text {operator : Operator} {version : Version}
    (hsign : operator.hasSign = true) :
    spanSign (bound operator version).text = (operator.text, version.text) := by
  obtain ⟨c, rest, htext, hversion, hdigit⟩ := bound_text_eq operator version
  rw [htext, hversion, Operator.spanSign_text_append hsign hdigit]

theorem text_bound_ne_nil (operator : Operator) (version : Version) :
    (bound operator version).text ≠ [] := by
  obtain ⟨c, rest, htext, _⟩ := bound_text_eq operator version
  rw [htext]
  simp

/-- Only the comparator without condition has an empty text. -/
theorem text_eq_nil_iff {c : Comparator} : c.text = [] ↔ c = any := by
  cases c with
  | any => simp [text]
  | bound operator version => simp [text_bound_ne_nil]

theorem operand_text {operator : Operator} {version : Version}
    (hc : (bound operator version).WellFormed) :
    operand (bound operator version).text = version.text := by
  rw [operand, spanSign_text hc.1]
  exact trimStart_eq_self fun c hmem =>
    Version.not_isBlank_of_mem_text hc.2 c (List.mem_of_mem_head? hmem)

/-- The canonical text of a well-formed comparator reads as the comparator
without the build of its version. -/
theorem read_text {c : Comparator} (hc : c.WellFormed) : read c.text = .ok c.withoutBuild := by
  cases c with
  | any => rfl
  | bound operator version =>
    have hempty : (bound operator version).text.isEmpty = false :=
      List.isEmpty_eq_false_iff.mpr (text_bound_ne_nil operator version)
    have hform := Version.hasForm_text hc.2
    unfold read
    rw [operand_text hc, spanSign_text hc.1, Operator.read_text, Version.read_text hc.2,
      if_neg (by simp [hempty]), if_pos hform]
    rfl

/-- The text of a comparator determines it up to the build of its version. -/
theorem withoutBuild_eq_of_text_eq {c d : Comparator} (hc : c.WellFormed) (hd : d.WellFormed)
    (htext : c.text = d.text) : c.withoutBuild = d.withoutBuild := by
  have hread := read_text hc
  rw [htext, read_text hd] at hread
  exact (Except.ok.inj hread).symm

/-- Whether a character can stand in the canonical text of a comparator. -/
def isTextChar (c : Char) : Bool :=
  isVersionChar c || Operator.isSignChar c

theorem isTextChar_of_mem_text {c : Comparator} (hc : c.WellFormed) {d : Char}
    (hmem : d ∈ c.text) : isTextChar d = true := by
  cases c with
  | any => cases hmem
  | bound operator version =>
    rcases List.mem_append.mp hmem with hoperator | hversion
    · rw [isTextChar, Operator.isSignChar_of_mem_text hc.1 hoperator, Bool.or_true]
    · rw [isTextChar, Version.isVersionChar_of_mem_text hc.2 hversion, Bool.true_or]

theorem not_isBlank_of_isTextChar {c : Char} (hc : isTextChar c = true) : isBlank c = false := by
  simp only [isTextChar, Operator.isSignChar, Bool.or_eq_true, beq_iff_eq] at hc
  rcases hc with hversion | (rfl | rfl) | rfl
  · exact not_isBlank_of_isVersionChar hversion
  · decide
  · decide
  · decide

theorem not_isBlank_of_mem_text {c : Comparator} (hc : c.WellFormed) :
    ∀ d ∈ c.text, isBlank d = false :=
  fun _ hd => not_isBlank_of_isTextChar (isTextChar_of_mem_text hc hd)

theorem isToken_text {c : Comparator} (hc : c.WellFormed) (hany : c ≠ any) : IsToken c.text :=
  ⟨fun hnil => hany (text_eq_nil_iff.mp hnil), not_isBlank_of_mem_text hc⟩

end Comparator

end SemanticVersions
