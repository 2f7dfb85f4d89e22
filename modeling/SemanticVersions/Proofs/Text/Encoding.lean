import SemanticVersions.Text.Blank

/-!
# Texts and their bytes

Texts compare by their code points, and UTF-8 keeps this order.  Where the encodings of two
characters part, the lesser character has the lesser byte, so two texts compare as the bytes
that they are encoded in.
-/

namespace SemanticVersions

open Std

def encode (text : Text) : List UInt8 :=
  text.flatMap String.utf8EncodeChar

theorem encode_cons (c : Char) (text : Text) :
    encode (c :: text) = String.utf8EncodeChar c ++ encode text := rfl

theorem compare_append_left {α : Type} [Ord α] [ReflOrd α] (common left right : List α) :
    compare (common ++ left) (common ++ right) = compare left right := by
  induction common with
  | nil => rfl
  | cons item common ih =>
    rw [List.cons_append, List.cons_append, List.compare_cons_cons, ReflOrd.compare_self, ih]
    rfl

/-! ### Bytes of characters -/

theorem byte_lt_iff {m n : Nat} (hm : m < 256) (hn : n < 256) :
    compare (UInt8.ofNat m) (UInt8.ofNat n) = .lt ↔ m < n := by
  rw [Std.compare_eq_lt, UInt8.lt_iff_toNat_lt, UInt8.toNat_ofNat_of_lt' hm,
    UInt8.toNat_ofNat_of_lt' hn]

theorem byte_eq_iff {m n : Nat} (hm : m < 256) (hn : n < 256) :
    UInt8.ofNat m = UInt8.ofNat n ↔ m = n := by
  rw [← UInt8.toNat_inj, UInt8.toNat_ofNat_of_lt' hm, UInt8.toNat_ofNat_of_lt' hn]

theorem toNat_lt_of_valid (c : Char) : c.toNat < 0x110000 := by
  have hvalid : c.toNat < 0xD800 ∨ 0xDFFF < c.toNat ∧ c.toNat < 0x110000 := c.valid
  omega

theorem compare_char_eq_lt_iff {c d : Char} : compare c d = .lt ↔ c.toNat < d.toNat := by
  change compareOfLessAndEq c d = .lt ↔ c.toNat < d.toNat
  rw [compareOfLessAndEq_eq_lt, Char.lt_def, UInt32.lt_iff_toNat_lt]
  exact Iff.rfl

/-- Where their encodings part, the lesser of two characters has the lesser byte. -/
theorem compare_encoded_of_lt {c d : Char} (hless : c.toNat < d.toNat) (left right : List UInt8) :
    compare (String.utf8EncodeChar c ++ left) (String.utf8EncodeChar d ++ right) = .lt := by
  have hlimit := toNat_lt_of_valid d
  -- A byte holds six bits, so the bits of a byte are those of a quotient by powers of 64.
  have hthird : ∀ n : Nat, n / 4096 = n / 64 / 64 := fun n => by
    rw [Nat.div_div_eq_div_mul]
  have hfourth : ∀ n : Nat, n / 262144 = n / 64 / 64 / 64 := fun n => by
    rw [Nat.div_div_eq_div_mul, Nat.div_div_eq_div_mul]
  have hc : c.val.toNat = c.toNat := rfl
  have hd : d.val.toNat = d.toNat := rfl
  simp only [String.utf8EncodeChar, hc, hd, hthird, hfourth]
  repeat' split
  all_goals
    simp only [List.cons_append, List.compare_cons_cons, Ordering.then_eq_lt,
      LawfulEqCmp.compare_eq_iff_eq]
    simp (disch := omega) only [byte_lt_iff, byte_eq_iff]
    omega

/-- Encoded texts compare by their first characters and then by the bytes behind these. -/
theorem compare_encoded (c d : Char) (left right : List UInt8) :
    compare (String.utf8EncodeChar c ++ left) (String.utf8EncodeChar d ++ right) =
      (compare c d).then (compare left right) := by
  cases hcompare : compare c d with
  | lt => exact compare_encoded_of_lt (compare_char_eq_lt_iff.mp hcompare) left right
  | eq =>
    obtain rfl := LawfulEqCmp.eq_of_compare hcompare
    exact compare_append_left _ left right
  | gt =>
    have hless := compare_char_eq_lt_iff.mp (OrientedCmp.gt_iff_lt.mp hcompare)
    exact OrientedCmp.gt_iff_lt.mpr (compare_encoded_of_lt hless right left)

/-! ### Bytes of texts -/

/-- Two texts compare as their bytes. -/
theorem compare_encode (s t : Text) : compare (encode s) (encode t) = compare s t := by
  have hne : ∀ (c : Char) (text : Text), ∃ byte rest, encode (c :: text) = byte :: rest := by
    intro c text
    refine List.exists_cons_of_ne_nil fun hnil => ?_
    exact String.utf8EncodeChar_ne_nil (List.append_eq_nil_iff.mp hnil).1
  induction s generalizing t with
  | nil =>
    cases t with
    | nil => rfl
    | cons d t =>
      obtain ⟨byte, rest, hbytes⟩ := hne d t
      rw [hbytes]
      rfl
  | cons c s ih =>
    cases t with
    | nil =>
      obtain ⟨byte, rest, hbytes⟩ := hne c s
      rw [hbytes]
      rfl
    | cons d t => rw [encode_cons, encode_cons, compare_encoded, List.compare_cons_cons, ih]

end SemanticVersions
