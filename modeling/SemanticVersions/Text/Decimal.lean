import SemanticVersions.Text.Blank

/-!
# Decimal numerals

A numeral is a nonempty run of ASCII digits.  A plain numeral has no leading
zero, so a number has exactly one.  Numbers of versions are words of sixty-four
bits, and reading refuses larger ones.
-/

namespace SemanticVersions

/-- A letter, a digit or a hyphen, all of them ASCII. -/
def isIdentifierChar (c : Char) : Bool :=
  c.isAlphanum || c == '-'

def isNumeral (text : Text) : Bool :=
  !text.isEmpty && text.all Char.isDigit

/-- Whether a text is a numeral with no leading zero. -/
def isPlainNumeral : Text → Bool
  | ['0'] => true
  | text => isNumeral text && text.head? != some '0'

def decimal (n : Nat) : Text :=
  Nat.toDigits 10 n

def decimalValue (digits : Text) : Nat :=
  Nat.ofDigitChars 10 digits 0

def maxWord : Nat := UInt64.size - 1

def readWord? (digits : Text) : Option UInt64 :=
  if decimalValue digits ≤ maxWord then
    some (UInt64.ofNat (decimalValue digits))
  else
    none

/-- The integer of sixty-four bits that a text denotes: a numeral with or
without a sign in front. -/
def readInteger? (text : Text) : Option Int :=
  match text with
  | '-' :: digits =>
    if isNumeral digits && decide (decimalValue digits ≤ Nat.pow 2 63) then
      some (-(decimalValue digits : Int))
    else
      none
  | '+' :: digits => unsigned digits
  | digits => unsigned digits
where
  /-- Reads a numeral without a sign. -/
  unsigned (digits : Text) : Option Int :=
    if isNumeral digits && decide (decimalValue digits < Nat.pow 2 63) then
      some (decimalValue digits : Int)
    else
      none

/-- The next word, or the same one at the largest. -/
def nextWord (n : UInt64) : UInt64 :=
  if n.toNat < maxWord then n + 1 else n

/-- A number is read back from its numeral. -/
@[simp] theorem decimalValue_decimal (n : Nat) : decimalValue (decimal n) = n :=
  Nat.ofDigitChars_toDigits (by decide) (by decide)

theorem isDigit_of_mem_decimal {n : Nat} {c : Char} (hmem : c ∈ decimal n) :
    c.isDigit = true :=
  Nat.isDigit_of_mem_toDigits (by decide) (by decide) hmem

/-- A word is read from its decimal form. -/
@[simp] theorem readWord?_decimal (n : UInt64) : readWord? (decimal n.toNat) = some n := by
  have hlimit : n.toNat ≤ maxWord := Nat.le_pred_of_lt n.toNat_lt
  simp [readWord?, hlimit]

end SemanticVersions
