import SemanticVersions.Text.Decimal

/-!
# Prerelease identifiers

A prerelease identifier is a number or a text.  Numbers come before texts;
two numbers compare by value and two texts by their code points.
-/

namespace SemanticVersions

/-- One identifier of a prerelease. -/
inductive Identifier
  | numeric (value : UInt64)
  | textual (text : Text)
deriving DecidableEq, Repr

namespace Identifier

/-- Reads an identifier: a numeral is a number, all else a text.  A numeral
too large for a word is refused. -/
def read? (text : Text) : Option Identifier :=
  if isNumeral text then
    (readWord? text).map numeric
  else
    some (textual text)

/-- Reads an identifier and keeps a numeral too large for a word as a text. -/
def ofText (text : Text) : Identifier :=
  (read? text).getD (textual text)

def isNumeric : Identifier → Bool
  | numeric _ => true
  | textual _ => false

def text : Identifier → Text
  | numeric value => decimal value.toNat
  | textual text => text

protected def compare : Identifier → Identifier → Ordering
  | numeric a, numeric b => Ord.compare a b
  | numeric _, textual _ => .lt
  | textual _, numeric _ => .gt
  | textual a, textual b => Ord.compare a b

instance : Ord Identifier where
  compare := Identifier.compare

/-- An identifier of a version text: a number, or a nonempty text of letters,
digits and hyphens that is not all digits. -/
def WellFormed : Identifier → Prop
  | numeric _ => True
  | textual text =>
    text ≠ [] ∧ text.all isIdentifierChar = true ∧ text.all Char.isDigit = false

theorem compare_numeric (a b : UInt64) :
    Ord.compare (numeric a) (numeric b) = Ord.compare a b := rfl

theorem compare_textual (a b : Text) :
    Ord.compare (textual a) (textual b) = Ord.compare a b := rfl

theorem compare_numeric_textual (a : UInt64) (b : Text) :
    Ord.compare (numeric a) (textual b) = .lt := rfl

theorem compare_textual_numeric (a : Text) (b : UInt64) :
    Ord.compare (textual a) (numeric b) = .gt := rfl

instance : Std.OrientedOrd Identifier where
  eq_swap {a b} := by
    match a, b with
    | numeric a, numeric b =>
      have hswap : Ord.compare a b = (Ord.compare b a).swap := Std.OrientedCmp.eq_swap
      exact hswap
    | numeric _, textual _ => rfl
    | textual _, numeric _ => rfl
    | textual a, textual b =>
      have hswap : Ord.compare a b = (Ord.compare b a).swap := Std.OrientedCmp.eq_swap
      exact hswap

instance : Std.TransOrd Identifier where
  isLE_trans {a b c} hab hbc := by
    match a, b, c with
    | numeric a, numeric b, numeric c =>
      have hle : (Ord.compare a b).isLE → (Ord.compare b c).isLE → (Ord.compare a c).isLE :=
        Std.TransCmp.isLE_trans
      exact hle hab hbc
    | numeric _, _, textual _ => rfl
    | textual _, numeric _, _ => cases hab
    | _, textual _, numeric _ => cases hbc
    | textual a, textual b, textual c =>
      have hle : (Ord.compare a b).isLE → (Ord.compare b c).isLE → (Ord.compare a c).isLE :=
        Std.TransCmp.isLE_trans
      exact hle hab hbc

instance : Std.LawfulEqOrd Identifier where
  compare_self {a} := by
    match a with
    | numeric a => exact (Std.ReflCmp.compare_self : Ord.compare a a = .eq)
    | textual a => exact (Std.ReflCmp.compare_self : Ord.compare a a = .eq)
  eq_of_compare {a b} hcompare := by
    match a, b with
    | numeric a, numeric b =>
      have heq : Ord.compare a b = .eq := hcompare
      exact congrArg numeric (Std.LawfulEqCmp.eq_of_compare heq)
    | numeric _, textual _ => cases hcompare
    | textual _, numeric _ => cases hcompare
    | textual a, textual b =>
      have heq : Ord.compare a b = .eq := hcompare
      exact congrArg textual (Std.LawfulEqCmp.eq_of_compare heq)

end Identifier

end SemanticVersions
