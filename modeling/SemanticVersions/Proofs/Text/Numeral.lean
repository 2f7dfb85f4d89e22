import SemanticVersions.Text.Decimal

/-!
# Plain numerals and characters of versions

A plain numeral is exactly the numeral of a number, so a version has one way to
write each of its numbers.  The characters of a version text are kept apart
from blanks and from the marks of a range, and every later proof about a mark
that cannot occur rests on that.
-/

namespace SemanticVersions

theorem isDigit_iff_range {c : Char} :
    c.isDigit = true ↔ 48 ≤ c.toNat ∧ c.toNat ≤ 57 :=
  Char.isDigit_iff_toNat

theorem isIdentifierChar_iff_range {c : Char} :
    isIdentifierChar c = true ↔
      (65 ≤ c.toNat ∧ c.toNat ≤ 90) ∨ (97 ≤ c.toNat ∧ c.toNat ≤ 122) ∨
        (48 ≤ c.toNat ∧ c.toNat ≤ 57) ∨ c.toNat = 45 := by
  have hhyphen : c = '-' ↔ c.toNat = 45 := by
    rw [← Char.toNat_inj]
    rfl
  have hupper : c.isUpper = true ↔ 65 ≤ c.toNat ∧ c.toNat ≤ 90 := by
    change decide (c.val ≥ 'A'.val ∧ c.val ≤ 'Z'.val) = true ↔ _
    rw [decide_eq_true_eq, ge_iff_le, UInt32.le_iff_toNat_le, UInt32.le_iff_toNat_le]
    exact Iff.rfl
  have hlower : c.isLower = true ↔ 97 ≤ c.toNat ∧ c.toNat ≤ 122 := by
    change (decide (c.val ≥ 'a'.val) && decide (c.val ≤ 'z'.val)) = true ↔ _
    rw [Bool.and_eq_true, decide_eq_true_eq, decide_eq_true_eq, ge_iff_le,
      UInt32.le_iff_toNat_le, UInt32.le_iff_toNat_le]
    exact Iff.rfl
  have halphanum : c.isAlphanum = ((c.isUpper || c.isLower) || c.isDigit) := rfl
  simp only [isIdentifierChar, halphanum, Bool.or_eq_true, beq_iff_eq, hhyphen, hupper, hlower,
    isDigit_iff_range]
  omega

def isVersionChar (c : Char) : Bool :=
  isIdentifierChar c || c == '.'

def isFullTextChar (c : Char) : Bool :=
  isVersionChar c || c == '+'

theorem isIdentifierChar_of_isDigit {c : Char} (hc : c.isDigit = true) :
    isIdentifierChar c = true := by
  rw [isIdentifierChar_iff_range]
  rw [isDigit_iff_range] at hc
  omega

theorem isVersionChar_of_isIdentifierChar {c : Char} (hc : isIdentifierChar c = true) :
    isVersionChar c = true := by
  simp [isVersionChar, hc]

theorem isFullTextChar_of_isVersionChar {c : Char} (hc : isVersionChar c = true) :
    isFullTextChar c = true := by
  simp [isFullTextChar, hc]

theorem not_isBlank_of_isIdentifierChar {c : Char} (hc : isIdentifierChar c = true) :
    isBlank c = false := by
  rw [isIdentifierChar_iff_range] at hc
  simp only [isBlank, blankRanges, List.any_cons, List.any_nil, Bool.or_false,
    Bool.or_eq_false_iff, Bool.and_eq_false_iff, decide_eq_false_iff_not]
  omega

theorem not_isBlank_of_isVersionChar {c : Char} (hc : isVersionChar c = true) :
    isBlank c = false := by
  simp only [isVersionChar, Bool.or_eq_true, beq_iff_eq] at hc
  rcases hc with hidentifier | rfl
  · exact not_isBlank_of_isIdentifierChar hidentifier
  · decide

/-- A mark outside a class of characters differs from each of the class. -/
theorem ne_of_class {inClass : Char → Bool} {c mark : Char} (hc : inClass c = true)
    (hmark : inClass mark = false) : c ≠ mark := by
  rintro rfl
  rw [hc] at hmark
  cases hmark

theorem not_mem_of_class {inClass : Char → Bool} {text : Text} {mark : Char}
    (htext : ∀ c ∈ text, inClass c = true) (hmark : inClass mark = false) : mark ∉ text :=
  fun hmem => ne_of_class (htext mark hmem) hmark rfl

/-! ### Numerals of numbers -/

theorem digitChar_of_isDigit {c : Char} (hc : c.isDigit = true) :
    Nat.digitChar (c.toNat - '0'.toNat) = c := by
  have hrange := isDigit_iff_range.mp hc
  have hten : c.toNat - '0'.toNat < 10 := by
    change c.toNat - 48 < 10
    omega
  rw [← Char.toNat_inj, Nat.toNat_digitChar_of_lt_ten hten]
  change 48 + (c.toNat - 48) = c.toNat
  omega

/-- Reading further digits behind the numeral of a positive number extends the
numeral by these digits. -/
theorem decimal_ofDigitChars {digits : Text} (hdigits : ∀ c ∈ digits, c.isDigit = true)
    {n : Nat} (hpositive : 0 < n) :
    decimal (Nat.ofDigitChars 10 digits n) = decimal n ++ digits := by
  induction digits generalizing n with
  | nil => simp
  | cons c rest ih =>
    have hc := hdigits c (by simp)
    have hrest : ∀ d ∈ rest, d.isDigit = true := fun d hd => hdigits d (by simp [hd])
    have hten : c.toNat - '0'.toNat < 10 := by
      have hrange := isDigit_iff_range.mp hc
      change c.toNat - 48 < 10
      omega
    have hstep : decimal (10 * n + (c.toNat - '0'.toNat)) = decimal n ++ [c] := by
      have happend := Nat.toDigits_append_toDigits (b := 10) (by decide) hpositive hten
      rw [Nat.toDigits_of_lt_base hten, digitChar_of_isDigit hc] at happend
      exact happend.symm
    rw [Nat.ofDigitChars_cons, ih hrest (by omega), hstep, List.append_assoc]
    rfl

theorem decimal_ne_nil (n : Nat) : decimal n ≠ [] :=
  Nat.toDigits_ne_nil

theorem all_isDigit_decimal (n : Nat) : ∀ c ∈ decimal n, c.isDigit = true :=
  fun _ hc => isDigit_of_mem_decimal hc

/-- Only zero has a numeral that begins with a zero. -/
theorem head?_decimal {n : Nat} (hpositive : 0 < n) : (decimal n).head? ≠ some '0' := by
  induction n using Nat.strongRecOn with
  | ind n ih =>
    rw [decimal, Nat.toDigits_eq_if (by decide)]
    split
    · next hsmall =>
      have hdigit : n.digitChar ≠ '0' := by
        simpa using Nat.ne_of_gt hpositive
      simpa using hdigit
    · next hlarge =>
      have hquotient : 0 < n / 10 := by omega
      have hhead := ih (n / 10) (by omega) hquotient
      obtain ⟨c, rest, hdigits⟩ := List.exists_cons_of_ne_nil (decimal_ne_nil (n / 10))
      rw [decimal] at hhead hdigits
      simpa [hdigits] using hhead

theorem isNumeral_iff {text : Text} :
    isNumeral text = true ↔ text ≠ [] ∧ ∀ c ∈ text, c.isDigit = true := by
  simp [isNumeral, List.all_eq_true]

/-- A plain numeral has digits only, and no leading zero unless it is the zero. -/
theorem isPlainNumeral_iff {text : Text} :
    isPlainNumeral text = true ↔
      text = ['0'] ∨ (text ≠ [] ∧ (∀ c ∈ text, c.isDigit = true) ∧ text.head? ≠ some '0') := by
  unfold isPlainNumeral
  split
  · simp
  · next hzero =>
    have hne : text ≠ ['0'] := hzero
    simp [isNumeral_iff, hne, and_assoc]

theorem isPlainNumeral_decimal (n : Nat) : isPlainNumeral (decimal n) = true := by
  rw [isPlainNumeral_iff]
  rcases Nat.eq_zero_or_pos n with rfl | hpositive
  · exact .inl rfl
  · exact .inr ⟨decimal_ne_nil n, all_isDigit_decimal n, head?_decimal hpositive⟩

theorem isNumeral_decimal (n : Nat) : isNumeral (decimal n) = true :=
  isNumeral_iff.mpr ⟨decimal_ne_nil n, all_isDigit_decimal n⟩

theorem isNumeral_of_isPlainNumeral {text : Text} (hplain : isPlainNumeral text = true) :
    isNumeral text = true := by
  rcases isPlainNumeral_iff.mp hplain with rfl | ⟨hne, hdigits, _⟩
  · rfl
  · exact isNumeral_iff.mpr ⟨hne, hdigits⟩

/-- A plain numeral is the numeral of the number that it denotes. -/
theorem decimal_decimalValue {text : Text} (hplain : isPlainNumeral text = true) :
    decimal (decimalValue text) = text := by
  rcases isPlainNumeral_iff.mp hplain with rfl | ⟨hne, hdigits, hhead⟩
  · rfl
  · obtain ⟨c, rest, rfl⟩ := List.exists_cons_of_ne_nil hne
    have hc := hdigits c (by simp)
    have hrange := isDigit_iff_range.mp hc
    have hcode : c.toNat ≠ 48 := by
      intro heq
      exact hhead (congrArg some (Char.toNat_inj.mp heq))
    have hten : c.toNat - '0'.toNat < 10 := by
      change c.toNat - 48 < 10
      omega
    have hpositive : 0 < c.toNat - '0'.toNat := by
      change 0 < c.toNat - 48
      omega
    have hfirst : decimal (c.toNat - '0'.toNat) = [c] := by
      rw [decimal, Nat.toDigits_of_lt_base hten, digitChar_of_isDigit hc]
    rw [decimalValue, Nat.ofDigitChars_cons, Nat.mul_zero, Nat.zero_add,
      decimal_ofDigitChars (fun d hd => hdigits d (by simp [hd])) hpositive, hfirst]
    rfl

/-- A plain numeral that fits into a word is the numeral of that word. -/
theorem readWord?_of_le {text : Text} (hfits : decimalValue text ≤ maxWord) :
    readWord? text = some (.ofNat (decimalValue text)) := if_pos hfits

/-- A plain numeral is the decimal form of its value. -/
theorem decimal_of_readWord? {text : Text} {word : UInt64} (hplain : isPlainNumeral text = true)
    (hread : readWord? text = some word) : decimal word.toNat = text := by
  simp only [readWord?, Option.ite_none_right_eq_some, Option.some.injEq] at hread
  obtain ⟨hlimit, rfl⟩ := hread
  have hvalue : (UInt64.ofNat (decimalValue text)).toNat = decimalValue text := by
    rw [UInt64.toNat_ofNat']
    exact Nat.mod_eq_of_lt (Nat.lt_of_le_pred (by decide) hlimit)
  rw [hvalue, decimal_decimalValue hplain]

end SemanticVersions
