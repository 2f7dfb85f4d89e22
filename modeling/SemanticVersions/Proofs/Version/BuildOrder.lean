import SemanticVersions.Proofs.Text.Numeral
import SemanticVersions.Proofs.Version.Precedence

/-!
# The order of builds

Build texts compare by three keys: whether they denote an integer, which one, and their code
points.  The last key tells apart what the first two leave equal, so the order is total and only
equal texts are equal in it, and builds compare as lists of such texts.  A text that denotes the
same number as a build text and as a prerelease identifier has the same place in both orders.
-/

namespace SemanticVersions

open Std

/-! ### Build texts -/

def isWord (text : Text) : Bool :=
  (readInteger? text).isNone

def integerValue (text : Text) : Int :=
  (readInteger? text).getD 0

/-- Build texts compare by kind, value and code points. -/
theorem compareBuildTexts_eq_compareLex :
    compareBuildTexts =
      compareLex (compareOn isWord) (compareLex (compareOn integerValue) compare) := by
  funext a b
  by_cases hsame : a = b
  · subst hsame
    have hself : compareLex (compareOn isWord)
        (compareLex (compareOn integerValue) compare) a a = .eq := ReflCmp.compare_self
    rw [hself, compareBuildTexts, if_pos rfl]
  · rw [compareBuildTexts, if_neg hsame]
    simp only [compareLex, compareOn, isWord, integerValue]
    cases readInteger? a <;> cases readInteger? b <;> rfl

instance : TransCmp compareBuildTexts := by
  rw [compareBuildTexts_eq_compareLex]
  infer_instance

instance : LawfulEqCmp compareBuildTexts where
  eq_of_compare {a b} hcompare := by
    rw [compareBuildTexts_eq_compareLex] at hcompare
    simp only [compareLex, Ordering.then_eq_eq] at hcompare
    exact LawfulEqCmp.eq_of_compare hcompare.2.2

/-! ### Builds -/

/-- Builds compare lexicographically. -/
theorem compareBuilds_eq_compareLex : compareBuilds = List.compareLex compareBuildTexts := by
  funext left right
  induction left generalizing right with
  | nil => cases right <;> rfl
  | cons a left ih =>
    cases right with
    | nil => rfl
    | cons b right =>
      rw [compareBuilds, List.compareLex_cons_cons, ih]
      split
      · next hsame =>
        have hself : compareBuildTexts a b = .eq := by
          rw [hsame]
          exact ReflCmp.compare_self
        rw [hself, Ordering.eq_then]
      · next hne =>
        have hdiffer : compareBuildTexts a b ≠ .eq := fun heq => hne (LawfulEqCmp.eq_of_compare heq)
        cases hcompare : compareBuildTexts a b with
        | eq => exact absurd hcompare hdiffer
        | lt => rfl
        | gt => rfl

instance : TransCmp compareBuilds := by
  rw [compareBuilds_eq_compareLex]
  infer_instance

instance : LawfulEqCmp compareBuilds := by
  rw [compareBuilds_eq_compareLex]
  infer_instance

/-- A build comes before its extensions. -/
theorem compareBuilds_append (build : List Text) {rest : List Text} (hrest : rest ≠ []) :
    compareBuilds build (build ++ rest) = .lt := by
  induction build with
  | nil =>
    cases rest with
    | nil => exact absurd rfl hrest
    | cons text rest => rfl
  | cons text build ih => rw [List.cons_append, compareBuilds, if_pos rfl, ih]

/-! ### Build texts as prerelease identifiers -/

def isNegativeNumeral : Text → Bool
  | '-' :: digits => isNumeral digits
  | _ => false

/-- Whether a text of letters, digits and hyphens is neither a negative number nor one with a
leading zero or above the largest integer. -/
def IsPlainText (text : Text) : Prop :=
  text.all isIdentifierChar = true ∧ isNegativeNumeral text = false ∧
    (isNumeral text = true → isPlainNumeral text = true ∧ decimalValue text < Nat.pow 2 63)

instance : DecidablePred IsPlainText := fun text =>
  inferInstanceAs (Decidable (text.all isIdentifierChar = true ∧ isNegativeNumeral text = false ∧
    (isNumeral text = true → isPlainNumeral text = true ∧ decimalValue text < Nat.pow 2 63)))

/-- Numbers that fit compare as words and as integers alike. -/
theorem compare_ofNat {m n : Nat} (hm : m < Nat.pow 2 63) (hn : n < Nat.pow 2 63) :
    compare (UInt64.ofNat m) (UInt64.ofNat n) = compare (m : Int) (n : Int) := by
  have hword : ∀ {k : Nat}, k < Nat.pow 2 63 → (UInt64.ofNat k).toNat = k := fun hk =>
    UInt64.toNat_ofNat_of_lt' (Nat.lt_trans hk (by decide))
  change compareOfLessAndEq _ _ = compareOfLessAndEq _ _
  simp only [compareOfLessAndEq, UInt64.lt_iff_toNat_lt, ← UInt64.toNat_inj, hword hm, hword hn,
    Int.ofNat_lt, Int.natCast_inj]

namespace IsPlainText

variable {text a b : Text}

theorem readInteger?_eq (hplain : IsPlainText text) :
    readInteger? text = if isNumeral text then some (decimalValue text : Int) else none := by
  obtain ⟨hchars, hsign, hnumeral⟩ := hplain
  unfold readInteger?
  split
  · next digits =>
    have hdigits : isNumeral digits = false := hsign
    have htext : isNumeral ('-' :: digits) = false := rfl
    simp [hdigits, htext]
  · cases hchars
  · rw [readInteger?.unsigned]
    cases hcase : isNumeral text with
    | false => rfl
    | true =>
      have hfits : decimalValue text < Nat.pow 2 63 := (hnumeral hcase).2
      simp [hfits]

/-- A plain text is a number as an identifier exactly if it is a numeral. -/
theorem ofText_eq (hplain : IsPlainText text) :
    Identifier.ofText text =
      if isNumeral text then .numeric (.ofNat (decimalValue text)) else .textual text := by
  rw [Identifier.ofText, Identifier.read?]
  split
  · next hnumeral =>
    have hfits : decimalValue text ≤ maxWord :=
      Nat.le_of_lt (Nat.lt_of_lt_of_le (hplain.2.2 hnumeral).2 (by decide))
    rw [readWord?_of_le hfits]
    rfl
  · rfl

/-- Plain numerals of different numbers are different. -/
theorem decimalValue_inj (ha : IsPlainText a) (hb : IsPlainText b) (hnumeralA : isNumeral a = true)
    (hnumeralB : isNumeral b = true) : decimalValue a = decimalValue b ↔ a = b := by
  constructor
  · intro hvalue
    rw [← decimal_decimalValue (ha.2.2 hnumeralA).1, hvalue,
      decimal_decimalValue (hb.2.2 hnumeralB).1]
  · exact congrArg decimalValue

/-- Plain texts compare in a build as they do in a prerelease. -/
theorem compare_eq (ha : IsPlainText a) (hb : IsPlainText b) :
    compareBuildTexts a b = compare (Identifier.ofText a) (Identifier.ofText b) := by
  by_cases hsame : a = b
  · subst hsame
    have hself : compareBuildTexts a a = .eq := ReflCmp.compare_self
    rw [hself, ReflOrd.compare_self]
  · rw [compareBuildTexts, if_neg hsame, ha.readInteger?_eq, hb.readInteger?_eq, ha.ofText_eq,
      hb.ofText_eq]
    cases hnumeralA : isNumeral a <;> cases hnumeralB : isNumeral b
    · rfl
    · rfl
    · rfl
    · -- Different plain numerals have different values, so their code points are not asked.
      have hvalue : (decimalValue a : Int) ≠ decimalValue b := by
        rw [Ne, Int.natCast_inj, decimalValue_inj ha hb hnumeralA hnumeralB]
        exact hsame
      have hwords := compare_ofNat (ha.2.2 hnumeralA).2 (hb.2.2 hnumeralB).2
      calc (compare (decimalValue a : Int) (decimalValue b : Int)).then (compare a b)
          = compare (decimalValue a : Int) (decimalValue b : Int) := by
            cases hcompare : compare (decimalValue a : Int) (decimalValue b : Int) with
            | lt => rfl
            | eq => exact absurd (LawfulEqCmp.eq_of_compare hcompare) hvalue
            | gt => rfl
        _ = compare (UInt64.ofNat (decimalValue a)) (.ofNat (decimalValue b)) := hwords.symm

end IsPlainText

/-! ### The order as a whole -/

/-- Build texts are totally ordered, and builds too: only equal ones are equal in the order, also
among texts of one value, and a build comes before its extensions.  Plain texts have the places
that they have as prerelease identifiers. -/
theorem build_order_total_and_shared :
    (∀ a b : Text, compareBuildTexts a b = .eq ↔ a = b) ∧
      (∀ a b : Text, compareBuildTexts b a = (compareBuildTexts a b).swap) ∧
      (∀ a b c : Text, (compareBuildTexts a b).isLE = true → (compareBuildTexts b c).isLE = true →
        (compareBuildTexts a c).isLE = true) ∧
      (∀ v w : Version, v.compareBuild w = .eq ↔ v.build = w.build) ∧
      (∀ v w : Version, w.compareBuild v = (v.compareBuild w).swap) ∧
      (∀ u v w : Version, (u.compareBuild v).isLE = true → (v.compareBuild w).isLE = true →
        (u.compareBuild w).isLE = true) ∧
      (∀ v w : Version, v.build <+: w.build → v.build ≠ w.build → v.compareBuild w = .lt) ∧
      ∀ a b : Text, IsPlainText a → IsPlainText b →
        compareBuildTexts a b = compare (Identifier.ofText a) (Identifier.ofText b) := by
  refine ⟨fun a b => LawfulEqCmp.compare_eq_iff_eq, fun a b => OrientedCmp.eq_swap,
    fun a b c => TransCmp.isLE_trans, fun v w => ?_, fun v w => ?_, fun u v w => ?_,
    fun v w => ?_, fun a b => IsPlainText.compare_eq⟩
  · have hiff : compareBuilds v.build w.build = .eq ↔ v.build = w.build :=
      LawfulEqCmp.compare_eq_iff_eq
    exact hiff
  · have hswap : compareBuilds w.build v.build = (compareBuilds v.build w.build).swap :=
      OrientedCmp.eq_swap
    exact hswap
  · have htrans : (compareBuilds u.build v.build).isLE = true →
        (compareBuilds v.build w.build).isLE = true →
          (compareBuilds u.build w.build).isLE = true := TransCmp.isLE_trans
    exact htrans
  · rintro ⟨rest, hextended⟩ hne
    have hrest : rest ≠ [] := by
      rintro rfl
      rw [List.append_nil] at hextended
      exact hne hextended
    rw [Version.compareBuild, ← hextended, compareBuilds_append v.build hrest]

/-- Three texts of the value five, and numbers of different length. -/
theorem build_order_total_and_shared_numbers :
    (compareBuildTexts "+5".toList "5".toList).isLE = true ∧
      compareBuildTexts "10".toList "9".toList =
        compare (Identifier.ofText "10".toList) (Identifier.ofText "9".toList) ∧
      Version.compareBuild ⟨1, 0, 0, [], ["05".toList]⟩ ⟨1, 0, 0, [], ["05".toList, []]⟩ = .lt := by
  obtain ⟨-, -, htrans, -, -, -, hprefix, hshared⟩ := build_order_total_and_shared
  exact ⟨htrans "+5".toList "05".toList "5".toList (by decide) (by decide),
    hshared _ _ (by decide) (by decide),
    hprefix ⟨1, 0, 0, [], ["05".toList]⟩ ⟨1, 0, 0, [], ["05".toList, []]⟩ (by decide) (by decide)⟩

end SemanticVersions
