import SemanticVersions.Proofs.Version.Ascent

/-!
# Named lines of prereleases

A prerelease is on a named line if its first identifier is the text of the name and at once a
number or nothing follows.  There a step raises the last number, and elsewhere it opens the line
with the name and a zero.  A name that reads as a number is written as one, so the line that it
opens is not found again: each further step opens it anew and leads back to the same version.
-/

namespace SemanticVersions

open Std

namespace Identifier

def IsNumber (text : Text) : Prop :=
  isNumeral text = true ∧ decimalValue text ≤ maxWord

instance : DecidablePred IsNumber := fun text =>
  inferInstanceAs (Decidable (isNumeral text = true ∧ decimalValue text ≤ maxWord))

variable {name : Text} {ids : List Identifier}

theorem isNumeric_ofText_iff : (ofText name).isNumeric = true ↔ IsNumber name := by
  rw [ofText, read?, IsNumber]
  split
  · next hnumeral =>
    by_cases hfits : decimalValue name ≤ maxWord <;>
      simp [readWord?, hnumeral, hfits, isNumeric]
  · next hnumeral => simp [hnumeral, isNumeric]

theorem ofText_eq_textual (hname : ¬ IsNumber name) : ofText name = textual name := by
  rw [ofText, read?]
  split
  · next hnumeral =>
    have hlarge : ¬ decimalValue name ≤ maxWord := fun hfits => hname ⟨hnumeral, hfits⟩
    simp [readWord?, hlarge]
  · rfl

/-! ### The line of identifiers -/

theorem head?_of_onLine (honLine : onLine name ids = true) : ids.head? = some (textual name) := by
  unfold onLine at honLine
  split at honLine
  · simpa using honLine
  · rw [Bool.and_eq_true, beq_iff_eq] at honLine
    simp [honLine.1]
  · cases honLine

/-- Raising a number neither leaves a line nor leads to one. -/
theorem onLine_raise (name : Text) (ids : List Identifier) :
    onLine name (raise ids) = onLine name ids := by
  obtain ⟨⟨front, back, hback⟩, n, rfl⟩ | htexts := exists_counter ids
  · -- The first two identifiers tell the line, and the number stays a number.
    rw [raise_ids, Counter.ids, Counter.ids]
    rcases front with _ | ⟨first, _ | ⟨second, rest⟩⟩
    · rfl
    · cases first <;> rfl
    · cases first <;> rfl
  · rw [raise_of_no_number htexts]
    rcases ids with _ | ⟨first, _ | ⟨second, rest⟩⟩
    · rfl
    · cases first <;> simp [onLine, isNumeric]
    · cases first <;> rfl

/-- A line that a prerelease is on goes on; any other one begins at zero. -/
theorem next_some_eq (name : Text) (ids : List Identifier) :
    next ids (some name) = if onLine name ids then raise ids else [ofText name, numeric 0] := by
  rw [next, onLine_raise]

/-- A line that is opened is found again unless its name is a number. -/
theorem onLine_opened (name : Text) :
    onLine name [ofText name, numeric 0] = true ↔ ¬ IsNumber name := by
  by_cases hname : IsNumber name
  · have hnumeric := isNumeric_ofText_iff.mpr hname
    cases hid : ofText name with
    | numeric n => simp [onLine, hname]
    | textual text => simp [hid, isNumeric] at hnumeric
  · simp [ofText_eq_textual hname, onLine, isNumeric, hname]

/-- A step leads onto the named line unless the name is a number. -/
theorem onLine_next_iff :
    onLine name (next ids (some name)) = true ↔ onLine name ids = true ∨ ¬ IsNumber name := by
  rw [next_some_eq]
  split
  · next honLine => simp [onLine_raise, honLine]
  · next honLine => simp [onLine_opened, honLine]

/-- Off the line a further step changes nothing. -/
theorem next_next_of_not_onLine (hoff : ¬ onLine name (next ids (some name)) = true) :
    next (next ids (some name)) (some name) = next ids (some name) := by
  have hids : ¬ onLine name ids = true := fun honLine => hoff (onLine_next_iff.mpr (.inl honLine))
  rw [next_some_eq name (next ids (some name)), if_neg hoff, next_some_eq, if_neg hids]

theorem next_ne_nil (ids : List Identifier) (name : Option Text) : next ids name ≠ [] := by
  have hraise : raise ids ≠ [] := by
    obtain ⟨counter, n, hraise⟩ := exists_raise_eq ids
    rw [hraise]
    exact counter.ids_ne_nil n
  cases name with
  | none => exact hraise
  | some name =>
    rw [next]
    split
    · exact hraise
    · simp

theorem mem_of_lastNumber? {n : UInt64} (hlast : lastNumber? ids = some n) : numeric n ∈ ids := by
  obtain ⟨id, hid, hnumber⟩ := List.exists_of_findSome?_eq_some hlast
  cases id with
  | numeric m =>
    cases hnumber
    exact List.mem_reverse.mp hid
  | textual text => cases hnumber

end Identifier

namespace Version

open Identifier

variable {v w : Version} {name : Text}

theorem prerelease_increment (v : Version) (name : Option Text) :
    (v.increment .prerelease name).prerelease = next v.prerelease name := by
  cases hv : v.isPrerelease with
  | true => simp [increment, hv, nextPre]
  | false =>
    have hids : v.prerelease = [] := by simpa [isPrerelease] using hv
    simp [increment, hv, nextPre, nextPatch, hids, withRelease]

theorem increment_of_isPrerelease (hw : w.isPrerelease = true) (name : Option Text) :
    w.increment .prerelease name = { w with prerelease := next w.prerelease name } := by
  rw [increment, if_pos hw]
  rfl

/-- Whether a further step on a named line leads forward within the line. -/
structure Advances (w : Version) (name : Text) : Prop where
  forward : compare w (w.increment .prerelease (some name)) = .lt
  sameRelease : (w.increment .prerelease (some name)).sameRelease w = true
  sameLine : (w.increment .prerelease (some name)).prerelease.head? = w.prerelease.head?

/-- On the named line a step leads forward if the last number can be raised. -/
theorem advances_of_onLine (hw : w.isPrerelease = true) (hroom : CanRaise w.prerelease)
    (honLine : onLine name w.prerelease = true) : w.Advances name := by
  have hstep : w.increment .prerelease (some name) =
      { w with prerelease := raise w.prerelease } := by
    rw [increment_of_isPrerelease hw, next_some_eq, if_pos honLine]
  have hne : w.prerelease ≠ [] := by simpa [isPrerelease] using hw
  have hraised : onLine name (raise w.prerelease) = true := by rwa [onLine_raise]
  constructor
  · rw [hstep]
    exact compare_eq_lt_of_prereleaseBefore (prereleaseBefore_raise hne hroom)
  · rw [hstep]
    exact sameRelease_iff.mpr (compareRelease_eq_iff.mpr ⟨rfl, rfl, rfl⟩)
  · rw [hstep, head?_of_onLine honLine]
    exact head?_of_onLine hraised

theorem not_advances_of_increment_eq (hstill : w.increment .prerelease (some name) = w) :
    ¬ w.Advances name := by
  intro hadvances
  have hforward := hadvances.forward
  have hself : compare w w = .eq := ReflCmp.compare_self
  rw [hstill, hself] at hforward
  cases hforward

/-- Where a step opened a line that is not found again, the next one leads back. -/
theorem increment_eq_self_of_off_line {ids : List Identifier} (hw : w.isPrerelease = true)
    (hids : w.prerelease = next ids (some name)) (hoff : ¬ onLine name w.prerelease = true) :
    w.increment .prerelease (some name) = w := by
  rw [hids] at hoff
  rw [increment_of_isPrerelease hw, hids, next_next_of_not_onLine hoff, ← hids]

/-- No version that was read stands on a line with the text of a number. -/
theorem WellFormed.not_isNumber (hv : v.WellFormed) (honLine : onLine name v.prerelease = true) :
    ¬ IsNumber name := by
  obtain ⟨_, _, hdigits⟩ := hv.1 _ (List.mem_of_mem_head? (head?_of_onLine honLine))
  intro hname
  have hall := List.all_eq_true.mpr (isNumeral_iff.mp hname.1).2
  rw [hall] at hdigits
  cases hdigits

/-- Repeated increments on a named line lead forward, from prereleases whose numbers are below
the largest word, exactly if the name is no number or the version stood on a line with its text
before; for a version that was read the name must be no number.  Otherwise each further step
leads back to the same version. -/
theorem named_line_advances_iff (hw : v.increment .prerelease (some name) = w)
    (hroom : ∀ n, .numeric n ∈ w.prerelease → n.toNat < maxWord) :
    (w.Advances name ↔ onLine name v.prerelease = true ∨ ¬ IsNumber name) ∧
      (v.WellFormed → (w.Advances name ↔ ¬ IsNumber name)) ∧
      (¬ w.Advances name → w.increment .prerelease (some name) = w) := by
  have hids : w.prerelease = next v.prerelease (some name) := by
    rw [← hw, prerelease_increment]
  have hprerelease : w.isPrerelease = true := by
    simp [isPrerelease, hids, next_ne_nil]
  have hcan : CanRaise w.prerelease := fun n hn => hroom n (mem_of_lastNumber? hn)
  have hexact : onLine name w.prerelease = true ↔
      onLine name v.prerelease = true ∨ ¬ IsNumber name := by
    rw [hids, onLine_next_iff]
  by_cases honLine : onLine name w.prerelease = true
  · have hadvances := advances_of_onLine hprerelease hcan honLine
    refine ⟨iff_of_true hadvances (hexact.mp honLine), fun hv => iff_of_true hadvances ?_,
      fun hnot => absurd hadvances hnot⟩
    rcases hexact.mp honLine with hstood | hname
    · exact hv.not_isNumber hstood
    · exact hname
  · have hstill := increment_eq_self_of_off_line hprerelease hids honLine
    have hnot := not_advances_of_increment_eq hstill
    refine ⟨iff_of_false hnot fun h => honLine (hexact.mpr h), fun _ => iff_of_false hnot ?_,
      fun _ => hstill⟩
    exact fun hname => honLine (hexact.mpr (.inr hname))

/-- From `1.2.3-pre` the line `beta` is opened at `1.2.3-beta.0`, and from there on it climbs. -/
theorem named_line_advances_iff_beta :
    let w : Version := ⟨1, 2, 3, [.textual "beta".toList, .numeric 0], []⟩
    samplePrerelease.increment .prerelease (some "beta".toList) = w ∧
      (∀ n, .numeric n ∈ w.prerelease → n.toNat < maxWord) ∧
      samplePrerelease.WellFormed ∧ w.Advances "beta".toList ∧
      w.increment .prerelease (some "beta".toList) =
        ⟨1, 2, 3, [.textual "beta".toList, .numeric 1], []⟩ := by
  intro w
  have hw : samplePrerelease.increment .prerelease (some "beta".toList) = w := by decide
  have hroom : ∀ n, .numeric n ∈ w.prerelease → n.toNat < maxWord := by
    simp [w, maxWord, UInt64.size]
  have hwell : samplePrerelease.WellFormed := by decide
  have hname : ¬ IsNumber "beta".toList := by decide
  exact ⟨hw, hroom, hwell, ((named_line_advances_iff hw hroom).2.1 hwell).mpr hname,
    by decide⟩

/-- From `1.2.3-pre` the line `5` is opened at `1.2.3-5.0`, and a further step leads back there. -/
theorem numbered_line_stands_still :
    let w : Version := ⟨1, 2, 3, [.numeric 5, .numeric 0], []⟩
    samplePrerelease.increment .prerelease (some "5".toList) = w ∧
      Fields.isPrereleaseField "5".toList = true ∧ decimalValue "5".toList ≤ maxWord ∧
      (∀ n, .numeric n ∈ w.prerelease → n.toNat < maxWord) ∧
      w.increment .prerelease (some "5".toList) = w ∧
      ¬ compare w (w.increment .prerelease (some "5".toList)) = .lt := by
  intro w
  refine ⟨by decide, by decide, by decide, ?_, by decide,
    by decide⟩
  simp [w, maxWord, UInt64.size]

end Version

end SemanticVersions
