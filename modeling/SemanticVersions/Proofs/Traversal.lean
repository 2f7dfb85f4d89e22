import Mathlib.Control.Monad.Basic

/-!
# Reading the items of a list in turn

A list is read item by item, and the first error stops the reading.  So it is read exactly if each
of its items is, what is read of it is what is read of the items, and an error comes from one of
them.
-/

namespace SemanticVersions

variable {α β γ ε : Type} {f : α → Except ε β} {items : List α} {results : List β}

/-- A list is traversed by its first item and then by the others. -/
theorem mapM_cons_eq_ok_iff {item : α} :
    (item :: items).mapM f = .ok results ↔
      ∃ first rest, f item = .ok first ∧ items.mapM f = .ok rest ∧ results = first :: rest := by
  rw [List.mapM_cons]
  cases hitem : f item with
  | error cause => simp [bind, Except.bind]
  | ok first =>
    cases hitems : items.mapM f with
    | error cause => simp [bind, Except.bind]
    | ok rest => simp [bind, Except.bind, pure, Except.pure, eq_comm]

/-- Two lists one behind the other are read one behind the other. -/
theorem mapM_append_eq_ok_iff {front back : List α} :
    (front ++ back).mapM f = .ok results ↔
      ∃ first rest, front.mapM f = .ok first ∧ back.mapM f = .ok rest ∧
        results = first ++ rest := by
  induction front generalizing results with
  | nil => simp [pure, Except.pure]
  | cons item front ih =>
    simp only [List.cons_append, mapM_cons_eq_ok_iff, ih]
    constructor
    · rintro ⟨head, _, hhead, ⟨first, rest, hfirst, hrest, rfl⟩, rfl⟩
      exact ⟨head :: first, rest, ⟨head, first, hhead, hfirst, rfl⟩, hrest, rfl⟩
    · rintro ⟨_, rest, ⟨head, first, hhead, hfirst, rfl⟩, hrest, rfl⟩
      exact ⟨head, first ++ rest, hhead, ⟨first, rest, hfirst, hrest, rfl⟩, rfl⟩

/-- What is read of a list is what is read of its items. -/
theorem mem_mapM_iff (hmap : items.mapM f = .ok results) {result : β} :
    result ∈ results ↔ ∃ item ∈ items, f item = .ok result := by
  induction items generalizing results with
  | nil =>
    obtain rfl : [] = results := Except.ok.inj hmap
    simp
  | cons item items ih =>
    obtain ⟨first, rest, hfirst, hrest, rfl⟩ := mapM_cons_eq_ok_iff.mp hmap
    simp [ih hrest, hfirst, eq_comm (a := result)]

theorem ne_nil_of_mapM (hmap : items.mapM f = .ok results) (hitems : items ≠ []) :
    results ≠ [] := by
  obtain ⟨item, items, rfl⟩ := List.exists_cons_of_ne_nil hitems
  obtain ⟨first, rest, -, -, rfl⟩ := mapM_cons_eq_ok_iff.mp hmap
  exact List.cons_ne_nil first rest

/-- A list is read exactly if each of its items is. -/
theorem exists_mapM_iff :
    (∃ results, items.mapM f = .ok results) ↔ ∀ item ∈ items, ∃ result, f item = .ok result := by
  induction items with
  | nil => simp [pure, Except.pure]
  | cons item items ih =>
    simp only [List.forall_mem_cons, ← ih, mapM_cons_eq_ok_iff]
    constructor
    · rintro ⟨_, first, rest, hfirst, hrest, rfl⟩
      exact ⟨⟨first, hfirst⟩, rest, hrest⟩
    · rintro ⟨⟨first, hfirst⟩, rest, hrest⟩
      exact ⟨first :: rest, first, rest, hfirst, hrest, rfl⟩

theorem mapM_map_eq_ok {render : γ → α} {result : γ → β} {items : List γ}
    (hitems : ∀ item ∈ items, f (render item) = .ok (result item)) :
    (items.map render).mapM f = .ok (items.map result) := by
  induction items with
  | nil => rfl
  | cons item items ih =>
    obtain ⟨hitem, hrest⟩ := List.forall_mem_cons.mp hitems
    rw [List.map_cons, mapM_cons_eq_ok_iff]
    exact ⟨result item, items.map result, hitem, ih hrest, rfl⟩

/-! ### Errors -/

/-- An error of two steps comes from the first one, or from the second one after the first. -/
theorem error_of_bind {first : Except ε α} {next : α → Except ε β} {cause : ε}
    (hbind : first >>= next = .error cause) :
    first = .error cause ∨ ∃ result, first = .ok result ∧ next result = .error cause := by
  cases first with
  | error found => exact .inl (congrArg Except.error (Except.error.inj hbind))
  | ok result => exact .inr ⟨result, rfl, hbind⟩

/-- An error of a list comes from one of its items. -/
theorem error_of_mapM {cause : ε} (hmap : items.mapM f = .error cause) :
    ∃ item ∈ items, f item = .error cause := by
  induction items with
  | nil => cases hmap
  | cons item items ih =>
    rw [List.mapM_cons] at hmap
    rcases error_of_bind hmap with hitem | ⟨result, _, hrest⟩
    · exact ⟨item, by simp, hitem⟩
    rcases error_of_bind hrest with hitems | ⟨results, _, hpure⟩
    · obtain ⟨other, hother, hfails⟩ := ih hitems
      exact ⟨other, by simp [hother], hfails⟩
    · cases hpure

end SemanticVersions
