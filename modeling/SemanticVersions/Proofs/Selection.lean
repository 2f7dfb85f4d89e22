import SemanticVersions.Proofs.Version.Precedence
import SemanticVersions.Selection

/-!
# Selection by filtering and sorting

The texts that satisfy a range are those left by a filter, in their order.  The greatest of them
is the last one when they are sorted, and the least is the first: sorting keeps the order of
equal versions, so among these the greatest is the last one of the input and the least the first.
-/

namespace SemanticVersions.Selection

open Std

/-! ### Entries of texts -/

section Entries

variable {texts : List Text} {text range : Text}

theorem read_of_mem_entries {entry : Entry} (hentry : entry ∈ entries texts) :
    Version.read entry.2 = .ok entry.1 := by
  obtain ⟨text, -, hread⟩ := List.mem_filterMap.mp hentry
  cases hversion : Version.read text with
  | ok version =>
    rw [hversion] at hread
    cases hread
    exact hversion
  | error error =>
    rw [hversion] at hread
    cases hread

theorem entries_cons_of_ok {version : Version} (hread : Version.read text = .ok version) :
    entries (text :: texts) = (version, text) :: entries texts := by
  simp [entries, hread]

theorem entries_cons_of_error {error : Error} (hread : Version.read text = .error error) :
    entries (text :: texts) = entries texts := by
  simp [entries, hread]

/-- What satisfies a range that was read is a version that the range accepts. -/
theorem satisfies_eq_true_iff :
    satisfies text range = true ↔
      ∃ r v, Range.read range = .ok r ∧ Version.read text = .ok v ∧ r.test v = true := by
  rw [satisfies]
  cases Version.read text <;> cases Range.read range <;> simp

/-- The texts that satisfy a range are those that each satisfy it alone. -/
theorem satisfiedBy_eq_filter (texts : List Text) (range : Text) :
    satisfiedBy texts range = texts.filter fun text => satisfies text range := by
  rw [satisfiedBy]
  cases hrange : Range.read range with
  | ok r =>
    apply List.filter_congr
    intro text _
    cases hread : Version.read text <;> simp [satisfies, hrange, hread]
  | error error => simp [satisfies, hrange]

def isVersion (text : Text) : Bool :=
  (Version.read text).isOk

theorem isVersion_of_ok {version : Version} (hread : Version.read text = .ok version) :
    isVersion text = true := by
  rw [isVersion, hread]
  rfl

theorem not_isVersion_of_error {error : Error} (hread : Version.read text = .error error) :
    ¬ isVersion text = true := by
  rw [isVersion, hread]
  exact Bool.false_ne_true

theorem map_text_entries (texts : List Text) :
    (entries texts).map (·.2) = texts.filter isVersion := by
  induction texts with
  | nil => rfl
  | cons text texts ih =>
    cases hread : Version.read text with
    | ok version =>
      rw [entries_cons_of_ok hread, List.map_cons, ih,
        List.filter_cons_of_pos (isVersion_of_ok hread)]
    | error error =>
      rw [entries_cons_of_error hread, ih, List.filter_cons_of_neg (not_isVersion_of_error hread)]

/-- The entries that a range matches are those of the texts that satisfy it. -/
theorem entries_satisfiedBy (texts : List Text) (range : Text) :
    entries (satisfiedBy texts range) = matching texts range := by
  rw [satisfiedBy, matching]
  cases Range.read range with
  | error error => rfl
  | ok r =>
    induction texts with
    | nil => rfl
    | cons text texts ih =>
      cases hread : Version.read text with
      | error error => simpa [entries_cons_of_error hread, hread] using ih
      | ok version =>
        rw [entries_cons_of_ok hread]
        cases htest : r.test version <;>
          simpa [List.filter_cons, entries_cons_of_ok hread, hread, htest] using ih

theorem map_text_matching (texts : List Text) (range : Text) :
    (matching texts range).map (·.2) = satisfiedBy texts range := by
  rw [← entries_satisfiedBy, map_text_entries, List.filter_eq_self]
  intro text htext
  rw [satisfiedBy_eq_filter, List.mem_filter, satisfies_eq_true_iff] at htext
  obtain ⟨-, r, v, -, hread, -⟩ := htext
  exact isVersion_of_ok hread

end Entries

/-! ### The order of entries -/

section Order

variable {list : List Entry} {entry : Entry}

def ascending (a b : Entry) : Bool :=
  (compare a.1 b.1).isLE

theorem ascending_trans (a b c : Entry) (hab : ascending a b = true) (hbc : ascending b c = true) :
    ascending a c = true :=
  TransCmp.isLE_trans hab hbc

theorem isLE_total {order : Version → Version → Ordering} [OrientedCmp order] (v w : Version) :
    ((order v w).isLE || (order w v).isLE) = true := by
  have hswap : order w v = (order v w).swap := OrientedCmp.eq_swap
  rw [hswap]
  cases order v w <;> rfl

theorem ascending_total (a b : Entry) : (ascending a b || ascending b a) = true :=
  isLE_total a.1 b.1

theorem ascending_of_not {a b : Entry} (hnot : ascending a b = false) : ascending b a = true := by
  have htotal := ascending_total a b
  rwa [hnot, Bool.false_or] at htotal

/-- What is greater than an entry is greater than all that do not stand behind that entry. -/
theorem not_ascending_trans {a b c : Entry} (hab : ascending a b = false)
    (hcb : ascending c b = true) : ascending a c = false := by
  refine Bool.eq_false_iff.mpr fun hac => ?_
  rw [ascending_trans a c b hac hcb] at hab
  cases hab

theorem isGT_eq_not_ascending (a b : Entry) : (compare a.1 b.1).isGT = !ascending a b := by
  rw [ascending]
  cases compare a.1 b.1 <;> rfl

theorem isLT_eq_not_ascending (a b : Entry) : (compare b.1 a.1).isLT = !ascending a b := by
  have hswap : compare b.1 a.1 = (compare a.1 b.1).swap := OrientedCmp.eq_swap
  rw [ascending, hswap]
  cases compare a.1 b.1 <;> rfl

/-- The greatest entry is the last one of the sorted entries. -/
theorem greatest?_eq_getLast? (list : List Entry) :
    greatest? list = (list.mergeSort ascending).getLast? := by
  induction list with
  | nil => simp [greatest?]
  | cons entry rest ih =>
    -- Sorting sets the first entry right in front of the entries that are not less.
    obtain ⟨before, after, hsorted, hrest, hbefore⟩ :=
      List.mergeSort_cons ascending_trans ascending_total entry rest
    have hpairs := List.pairwise_mergeSort ascending_trans ascending_total (entry :: rest)
    rw [hsorted] at hpairs ⊢
    rw [hrest] at ih
    rw [greatest?, ih]
    cases after with
    | nil =>
      rw [List.append_nil, List.getLast?_concat]
      cases hlast : before.getLast? with
      | none => rfl
      | some best =>
        have hless := hbefore best (List.mem_of_getLast? hlast)
        rw [← isGT_eq_not_ascending] at hless
        simp [hless]
    | cons next after =>
      have hlast := List.getLast?_eq_some_getLast (List.cons_ne_nil next after)
      have hmem := List.mem_of_getLast? hlast
      have hbest := List.rel_of_pairwise_cons (List.pairwise_append.mp hpairs).2.1 hmem
      rw [List.getLast?_append, List.getLast?_append, List.getLast?_cons_cons, hlast,
        Option.some_or]
      simp [isGT_eq_not_ascending, hbest]

/-- The least entry is the first one of the sorted entries. -/
theorem least?_eq_head? (list : List Entry) :
    least? list = (list.mergeSort ascending).head? := by
  induction list with
  | nil => simp [least?]
  | cons entry rest ih =>
    obtain ⟨before, after, hsorted, hrest, hbefore⟩ :=
      List.mergeSort_cons ascending_trans ascending_total entry rest
    have hpairs := List.pairwise_mergeSort ascending_trans ascending_total (entry :: rest)
    rw [hsorted] at hpairs ⊢
    rw [hrest] at ih
    rw [least?, ih]
    cases before with
    | nil =>
      cases after with
      | nil => rfl
      | cons best after =>
        have hbest := List.rel_of_pairwise_cons hpairs List.mem_cons_self
        simp [isLT_eq_not_ascending, hbest]
    | cons best before =>
      have hless := hbefore best List.mem_cons_self
      rw [← isLT_eq_not_ascending] at hless
      simp [hless]

/-! ### The places of the greatest and the least entry -/

/-- The entry that is left when each entry is given up for a later one unless it is preferred. -/
def choose? (prefers : Entry → Entry → Bool) : List Entry → Option Entry
  | [] => none
  | entry :: entries =>
    match choose? prefers entries with
    | none => some entry
    | some best => if prefers entry best then some entry else some best

/-- The greatest entry is chosen by giving way to all that do not stand before it. -/
theorem greatest?_eq_choose? (list : List Entry) :
    greatest? list = choose? (fun a b => !ascending a b) list := by
  induction list with
  | nil => rfl
  | cons entry rest ih =>
    rw [greatest?, choose?, ih]
    cases choose? (fun a b => !ascending a b) rest with
    | none => rfl
    | some best => simp only [isGT_eq_not_ascending]

theorem least?_eq_choose? (list : List Entry) : least? list = choose? ascending list := by
  induction list with
  | nil => rfl
  | cons entry rest ih =>
    rw [least?, choose?, ih]
    cases choose? ascending rest with
    | none => rfl
    | some best => cases hbest : ascending entry best <;> simp [isLT_eq_not_ascending, hbest]

section Choice

variable {prefers : Entry → Entry → Bool}

theorem choose?_eq_none_iff : choose? prefers list = none ↔ list = [] := by
  cases list with
  | nil => simp [choose?]
  | cons entry rest =>
    rw [choose?]
    split
    · simp
    · split <;> simp

theorem mem_of_choose? (hchosen : choose? prefers list = some entry) : entry ∈ list := by
  induction list with
  | nil => cases hchosen
  | cons first rest ih =>
    rw [choose?] at hchosen
    split at hchosen
    · cases hchosen
      exact List.mem_cons_self
    · next best hbest =>
      split at hchosen
      · cases hchosen
        exact List.mem_cons_self
      · cases hchosen
        exact List.mem_cons_of_mem _ (ih hbest)

/-- Whether an entry of a list is preferred to all behind it, and none before it is preferred to
it. -/
def IsChoice (prefers : Entry → Entry → Bool) (before : List Entry) (entry : Entry)
    (after : List Entry) : Prop :=
  (∀ other ∈ before, prefers other entry = false) ∧ ∀ other ∈ after, prefers entry other = true

/-- An entry that is preferred to all behind it, and to which none before it is preferred, is
chosen. -/
theorem choose?_of_isChoice {before after : List Entry}
    (hchoice : IsChoice prefers before entry after) :
    choose? prefers (before ++ entry :: after) = some entry := by
  obtain ⟨hbefore, hafter⟩ := hchoice
  induction before with
  | nil =>
    rw [List.nil_append, choose?]
    cases hbest : choose? prefers after with
    | none => rfl
    | some best => simp [hafter best (mem_of_choose? hbest)]
  | cons first before ih =>
    obtain ⟨hfirst, hrest⟩ := List.forall_mem_cons.mp hbefore
    rw [List.cons_append, choose?, ih hrest]
    simp [hfirst]

/-- What is chosen is preferred to all behind it, and none before it is preferred to it. -/
theorem exists_isChoice
    (htrans : ∀ a b c, prefers a b = true → prefers b c = true → prefers a c = true)
    (hover : ∀ a b c, prefers a b = true → prefers c b = false → prefers a c = true)
    (hchosen : choose? prefers list = some entry) :
    ∃ before after, list = before ++ entry :: after ∧ IsChoice prefers before entry after := by
  induction list generalizing entry with
  | nil => cases hchosen
  | cons first rest ih =>
    rw [choose?] at hchosen
    split at hchosen
    · next hnone =>
      cases hchosen
      rw [choose?_eq_none_iff.mp hnone]
      exact ⟨[], [], rfl, List.forall_mem_nil _, List.forall_mem_nil _⟩
    · next best hbest =>
      obtain ⟨before, after, rfl, hbefore, hafter⟩ := ih hbest
      split at hchosen
      · next hfirst =>
        cases hchosen
        have hothers : ∀ other ∈ before ++ best :: after, prefers first other = true := by
          rw [List.forall_mem_append, List.forall_mem_cons]
          exact ⟨fun other hother => hover _ _ _ hfirst (hbefore other hother), hfirst,
            fun other hother => htrans _ _ _ hfirst (hafter other hother)⟩
        exact ⟨[], before ++ best :: after, rfl, List.forall_mem_nil _, hothers⟩
      · next hfirst =>
        cases hchosen
        exact ⟨first :: before, after, rfl,
          List.forall_mem_cons.mpr ⟨Bool.eq_false_iff.mpr hfirst, hbefore⟩, hafter⟩

end Choice

end Order

/-! ### The order of texts -/

/-- Whether two texts denote versions of which the first does not stand behind the second. -/
def AtMost (a b : Text) : Prop :=
  ∃ v w, Version.read a = .ok v ∧ Version.read b = .ok w ∧ (compare v w).isLE = true

/-- Whether two texts denote versions of which the first stands before the second. -/
def Below (a b : Text) : Prop :=
  ∃ v w, Version.read a = .ok v ∧ Version.read b = .ok w ∧ compare v w = .lt

section Texts

variable {a b : Entry} (ha : Version.read a.2 = .ok a.1) (hb : Version.read b.2 = .ok b.1)

include ha hb

theorem atMost_iff : AtMost a.2 b.2 ↔ ascending a b = true := by
  rw [ascending]
  constructor
  · rintro ⟨v, w, hv, hw, hle⟩
    rw [ha] at hv
    rw [hb] at hw
    cases hv
    cases hw
    exact hle
  · exact fun hle => ⟨a.1, b.1, ha, hb, hle⟩

theorem below_iff : Below a.2 b.2 ↔ ascending b a = false := by
  rw [← Bool.not_eq_true', ← isLT_eq_not_ascending]
  constructor
  · rintro ⟨v, w, hv, hw, hless⟩
    rw [ha] at hv
    rw [hb] at hw
    cases hv
    cases hw
    rw [hless]
    rfl
  · intro hless
    refine ⟨a.1, b.1, ha, hb, ?_⟩
    simpa using hless

end Texts

/-- A choice among entries is one among their texts. -/
theorem map_choose?_eq_some_iff {prefers : Entry → Entry → Bool} {front back : Text → Text → Prop}
    {list : List Entry} {text : Text}
    (htrans : ∀ a b c, prefers a b = true → prefers b c = true → prefers a c = true)
    (hover : ∀ a b c, prefers a b = true → prefers c b = false → prefers a c = true)
    (hfront : ∀ a ∈ list, ∀ b ∈ list, front a.2 b.2 ↔ prefers a b = false)
    (hback : ∀ a ∈ list, ∀ b ∈ list, back a.2 b.2 ↔ prefers a b = true) :
    (choose? prefers list).map (·.2) = some text ↔
      ∃ before after, list.map (·.2) = before ++ text :: after ∧
        (∀ other ∈ before, front other text) ∧ ∀ other ∈ after, back text other := by
  constructor
  · intro hchosen
    obtain ⟨entry, hentry, rfl⟩ := Option.map_eq_some_iff.mp hchosen
    obtain ⟨before, after, rfl, hbefore, hafter⟩ := exists_isChoice htrans hover hentry
    refine ⟨before.map (·.2), after.map (·.2), by simp, ?_, ?_⟩
    · rw [List.forall_mem_map]
      intro other hother
      exact (hfront other (by simp [hother]) entry (by simp)).mpr (hbefore other hother)
    · rw [List.forall_mem_map]
      intro other hother
      exact (hback entry (by simp) other (by simp [hother])).mpr (hafter other hother)
  · rintro ⟨before, after, hsplit, hbefore, hafter⟩
    obtain ⟨first, rest, rfl, rfl, hrest⟩ := List.map_eq_append_iff.mp hsplit
    obtain ⟨entry, last, rfl, rfl, rfl⟩ := List.map_eq_cons_iff.mp hrest
    rw [List.forall_mem_map] at hbefore hafter
    have hchoice : IsChoice prefers first entry last := by
      constructor
      · intro other hother
        exact (hfront other (by simp [hother]) entry (by simp)).mp (hbefore other hother)
      · intro other hother
        exact (hback entry (by simp) other (by simp [hother])).mp (hafter other hother)
    rw [choose?_of_isChoice hchoice]
    rfl

/-! ### Selection -/

section Selection

variable (texts : List Text) (range : Text)

/-- The greatest text that satisfies a range is the last of these when they are sorted. -/
theorem maxSatisfying_eq_getLast? :
    maxSatisfying texts range = (sort (satisfiedBy texts range)).getLast? := by
  have hsort : sort (satisfiedBy texts range) =
      ((entries (satisfiedBy texts range)).mergeSort ascending).map (·.2) := rfl
  rw [maxSatisfying, hsort, entries_satisfiedBy, List.getLast?_map, greatest?_eq_getLast?]

/-- The least text that satisfies a range is the first of these when they are sorted. -/
theorem minSatisfying_eq_head? :
    minSatisfying texts range = (sort (satisfiedBy texts range)).head? := by
  have hsort : sort (satisfiedBy texts range) =
      ((entries (satisfiedBy texts range)).mergeSort ascending).map (·.2) := rfl
  rw [minSatisfying, hsort, entries_satisfiedBy, List.head?_map, least?_eq_head?]

theorem map_choose?_matching_eq_none_iff {prefers : Entry → Entry → Bool} :
    (choose? prefers (matching texts range)).map (·.2) = none ↔ satisfiedBy texts range = [] := by
  rw [Option.map_eq_none_iff, choose?_eq_none_iff, ← map_text_matching, List.map_eq_nil_iff]

theorem read_of_mem_matching {entry : Entry} (hentry : entry ∈ matching texts range) :
    Version.read entry.2 = .ok entry.1 := by
  rw [← entries_satisfiedBy] at hentry
  exact read_of_mem_entries hentry

/-- Of equal greatest versions the last one in the list is taken. -/
theorem maxSatisfying_eq_some_iff {text : Text} :
    maxSatisfying texts range = some text ↔
      ∃ before after, satisfiedBy texts range = before ++ text :: after ∧
        (∀ other ∈ before, AtMost other text) ∧ ∀ other ∈ after, Below other text := by
  have hread : ∀ entry ∈ matching texts range, Version.read entry.2 = .ok entry.1 := fun _ =>
    read_of_mem_matching texts range
  rw [maxSatisfying, greatest?_eq_choose?, ← map_text_matching]
  apply map_choose?_eq_some_iff
  · intro a b c hab hbc
    rw [Bool.not_eq_true'] at hab hbc ⊢
    exact not_ascending_trans hab (ascending_of_not hbc)
  · intro a b c hab hcb
    rw [Bool.not_eq_true'] at hab ⊢
    rw [Bool.not_eq_false'] at hcb
    exact not_ascending_trans hab hcb
  · intro a ha b hb
    rw [atMost_iff (hread a ha) (hread b hb), Bool.not_eq_false']
  · intro a ha b hb
    rw [below_iff (hread b hb) (hread a ha), Bool.not_eq_true']

/-- Of equal least versions the first one in the list is taken. -/
theorem minSatisfying_eq_some_iff {text : Text} :
    minSatisfying texts range = some text ↔
      ∃ before after, satisfiedBy texts range = before ++ text :: after ∧
        (∀ other ∈ before, Below text other) ∧ ∀ other ∈ after, AtMost text other := by
  have hread : ∀ entry ∈ matching texts range, Version.read entry.2 = .ok entry.1 := fun _ =>
    read_of_mem_matching texts range
  rw [minSatisfying, least?_eq_choose?, ← map_text_matching]
  apply map_choose?_eq_some_iff ascending_trans
  · exact fun a b c hab hcb => ascending_trans a b c hab (ascending_of_not hcb)
  · exact fun a ha b hb => below_iff (hread b hb) (hread a ha)
  · exact fun a ha b hb => atMost_iff (hread a ha) (hread b hb)

/-- Selection agrees with filtering and sorting.  The texts that satisfy a range are those that
each satisfy it alone, in their order, and none if the range is not read.  The greatest of them
is the last one and the least the first one of them in ascending order; there is none exactly if
no text satisfies the range.  The greatest has none greater before it and only lesser ones behind
it, and the least only greater ones before it and none lesser behind it, and this tells which
texts they are. -/
theorem selection_agrees_with_sorting :
    satisfiedBy texts range = texts.filter (fun text => satisfies text range) ∧
      ((∀ r, Range.read range ≠ .ok r) → satisfiedBy texts range = []) ∧
      maxSatisfying texts range = (sort (satisfiedBy texts range)).getLast? ∧
      minSatisfying texts range = (sort (satisfiedBy texts range)).head? ∧
      (maxSatisfying texts range = none ↔ satisfiedBy texts range = []) ∧
      (minSatisfying texts range = none ↔ satisfiedBy texts range = []) ∧
      ∀ text,
        (maxSatisfying texts range = some text ↔
          ∃ before after, satisfiedBy texts range = before ++ text :: after ∧
            (∀ other ∈ before, AtMost other text) ∧ ∀ other ∈ after, Below other text) ∧
        (minSatisfying texts range = some text ↔
          ∃ before after, satisfiedBy texts range = before ++ text :: after ∧
            (∀ other ∈ before, Below text other) ∧ ∀ other ∈ after, AtMost text other) := by
  refine ⟨satisfiedBy_eq_filter texts range, ?_, maxSatisfying_eq_getLast? texts range,
    minSatisfying_eq_head? texts range, ?_, ?_, fun text =>
      ⟨maxSatisfying_eq_some_iff texts range, minSatisfying_eq_some_iff texts range⟩⟩
  · intro hrange
    rw [satisfiedBy]
    cases hread : Range.read range with
    | ok r => exact absurd hread (hrange r)
    | error error => rfl
  · rw [maxSatisfying, greatest?_eq_choose?, map_choose?_matching_eq_none_iff]
  · rw [minSatisfying, least?_eq_choose?, map_choose?_matching_eq_none_iff]

/-- Equal versions in other spellings, with a text that is no version, and a text that is no
range. -/
theorem selection_agrees_with_sorting_spellings :
    satisfiedBy ["1.2.3+b".toList, "v1.2.3".toList, "1.2.4+x".toList, "1.2".toList, " 1.2.4".toList]
        "^1.2.0".toList =
      ["1.2.3+b".toList, "v1.2.3".toList, "1.2.4+x".toList, " 1.2.4".toList] ∧
    (sort ["1.2.3+b".toList, "v1.2.3".toList, "1.2.4+x".toList, " 1.2.4".toList]).getLast? =
      some " 1.2.4".toList ∧
    (sort ["1.2.3+b".toList, "v1.2.3".toList, "1.2.4+x".toList, " 1.2.4".toList]).head? =
      some "1.2.3+b".toList ∧
    satisfiedBy ["1.2.3".toList] "1.2.x.y".toList = [] := by
  have hrefused : ∀ r, Range.read "1.2.x.y".toList ≠ .ok r := by
    intro r hread
    have hfails : (Range.read "1.2.x.y".toList).isOk = false := by decide +kernel
    rw [hread] at hfails
    cases hfails
  have hsatisfied : satisfiedBy
      ["1.2.3+b".toList, "v1.2.3".toList, "1.2.4+x".toList, "1.2".toList, " 1.2.4".toList]
        "^1.2.0".toList =
      ["1.2.3+b".toList, "v1.2.3".toList, "1.2.4+x".toList, " 1.2.4".toList] := by decide +kernel
  obtain ⟨-, -, hmax, hmin, -⟩ := selection_agrees_with_sorting
    ["1.2.3+b".toList, "v1.2.3".toList, "1.2.4+x".toList, "1.2".toList, " 1.2.4".toList]
    "^1.2.0".toList
  obtain ⟨-, hnone, -⟩ := selection_agrees_with_sorting ["1.2.3".toList] "1.2.x.y".toList
  rw [hsatisfied] at hmax hmin
  refine ⟨hsatisfied, ?_, ?_, hnone hrefused⟩
  · rw [← hmax]
    decide +kernel
  · rw [← hmin]
    decide +kernel

end Selection

end SemanticVersions.Selection
