import Mathlib.Logic.Function.Basic
import SemanticVersions.Document
import SemanticVersions.Proofs.Version.Format

/-!
# Versions in documents and the wording of refusals

A document keeps a version whole.  What is refused can be told from the wording of the refusal: an
error by its cause and the text at fault, and a value that is no string by what it is and what was
expected in its place.  Each kind of wording has an opening of its own, and no opening begins
another, so an opening is told from what stands behind it whatever this is.
-/

namespace SemanticVersions

/-- Openings none of which begins another are told from what stands behind them. -/
theorem eq_of_opening {ι : Type} {opening : ι → Text}
    (hapart : ∀ i j, opening i <+: opening j → i = j) {i j : ι} {x y : Text}
    (htext : opening i ++ x = opening j ++ y) : i = j ∧ x = y := by
  have hsame : i = j := by
    have hi : opening i <+: opening j ++ y := htext ▸ List.prefix_append _ x
    rcases List.prefix_or_prefix_of_prefix hi (List.prefix_append _ y) with hij | hji
    · exact hapart i j hij
    · exact (hapart j i hji).symm
  subst hsame
  exact ⟨rfl, List.append_cancel_left htext⟩

namespace Error

/-- How the wording of each kind of error begins, and that of a value of the wrong kind. -/
def opening : Fin 6 → Text
  | 0 => "Version \"".toList
  | 1 => "Invalid comparator ".toList
  | 2 => "Invalid SemVer range ".toList
  | 3 => "Invalid operator ".toList
  | 4 => "invalid increment argument: ".toList
  | 5 => "invalid type: ".toList

theorem opening_apart : ∀ i j, opening i <+: opening j → i = j := by
  decide

def kind : Error → Fin 6
  | invalidVersion _ => 0
  | invalidComparator _ => 1
  | invalidRange _ => 2
  | invalidOperator _ => 3
  | unknownRelease _ => 4

def closing : Error → Text
  | invalidVersion _ => "\" is not valid".toList
  | _ => []

/-- A message is the opening of its kind, the text that was refused, and what closes it. -/
theorem message_eq (error : Error) :
    error.message = opening error.kind ++ (error.input ++ error.closing) := by
  cases error with
  | invalidVersion input => exact List.append_assoc _ input _
  | _ => exact congrArg (_ ++ ·) (List.append_nil _).symm

theorem eq_of_kind {a b : Error} (hkind : a.kind = b.kind) (hinput : a.input = b.input) :
    a = b := by
  cases a <;> cases b <;> first | exact congrArg _ hinput | cases hkind

/-- Errors with one wording have one cause and one text at fault. -/
theorem message_injective : Function.Injective message := by
  intro a b hmessage
  rw [message_eq, message_eq] at hmessage
  obtain ⟨hkind, htext⟩ := eq_of_opening opening_apart hmessage
  have hclosing : a.closing = b.closing := by
    cases a <;> cases b <;> first | rfl | cases hkind
  rw [hclosing] at htext
  exact eq_of_kind hkind (List.append_cancel_right htext)

end Error

namespace Document

namespace Value

/-- How the words for each kind of value begin. -/
def opening : Fin 7 → Text
  | 0 => "null".toList
  | 1 => "boolean `".toList
  | 2 => "integer `".toList
  | 3 => "floating point `".toList
  | 4 => "string \"".toList
  | 5 => "sequence".toList
  | 6 => "map".toList

theorem opening_apart : ∀ i j, opening i <+: opening j → i = j := by
  decide

def kind : Value → Fin 7
  | null => 0
  | boolean _ => 1
  | number numeral => if isInteger numeral then 2 else 3
  | string _ => 4
  | sequence => 5
  | mapping => 6

def content : Value → Text
  | boolean value => if value then "true`".toList else "false`".toList
  | number numeral => numeral ++ ['`']
  | string content => content ++ ['"']
  | _ => []

theorem kind_number (numeral : Text) :
    (number numeral).kind = 2 ∨ (number numeral).kind = 3 := by
  by_cases hinteger : isInteger numeral = true
  · exact .inl (if_pos hinteger)
  · exact .inr (if_neg hinteger)

/-- A description is the opening of its kind and what the value holds. -/
theorem description_eq (value : Value) :
    value.description = opening value.kind ++ value.content := by
  cases value with
  | boolean value => cases value <;> decide
  | number numeral =>
    change (if isInteger numeral then "integer `".toList ++ numeral ++ ['`']
        else "floating point `".toList ++ numeral ++ ['`']) =
      opening (if isInteger numeral then 2 else 3) ++ (numeral ++ ['`'])
    split <;> exact List.append_assoc _ numeral _
  | string content => exact List.append_assoc _ content _
  | _ => exact (List.append_nil _).symm

/-- The value that the words for a kind go on to describe. -/
def ofContent (kind : Fin 7) (content : Text) : Value :=
  match kind with
  | 0 => null
  | 1 => boolean (content == "true`".toList)
  | 2 | 3 => number content.dropLast
  | 4 => string content.dropLast
  | 5 => sequence
  | 6 => mapping

theorem ofContent_kind (value : Value) : ofContent value.kind value.content = value := by
  cases value with
  | boolean value => cases value <;> decide
  | number numeral =>
    have hnumeral : (numeral ++ ['`']).dropLast = numeral := List.dropLast_concat
    rcases kind_number numeral with hkind | hkind <;> rw [hkind] <;> exact congrArg number hnumeral
  | string content => exact congrArg string List.dropLast_concat
  | _ => rfl

/-- The words for a value tell which it is. -/
theorem description_injective : Function.Injective description := by
  intro a b hdescription
  rw [description_eq, description_eq] at hdescription
  obtain ⟨hkind, hcontent⟩ := eq_of_opening opening_apart hdescription
  calc a = ofContent a.kind a.content := (ofContent_kind a).symm
    _ = ofContent b.kind b.content := by rw [hkind, hcontent]
    _ = b := ofContent_kind b

end Value

/-- What is wanted can be told from the end of a text. -/
theorem Wanted.description_suffix {a b : Wanted} {x y : Text}
    (htext : x ++ a.description = y ++ b.description) : a = b := by
  have hb : b.description <:+ x ++ a.description := htext ▸ List.suffix_append y _
  have hsuffix := List.suffix_or_suffix_of_suffix (List.suffix_append x a.description) hb
  revert hsuffix
  cases a <;> cases b <;> decide

namespace Refusal

theorem message_wrongKind (found : Value) (wanted : Wanted) :
    (wrongKind found wanted).message =
      Error.opening 5 ++ ((found.description ++ ", expected ".toList) ++ wanted.description) := by
  change (Error.opening 5 ++ found.description ++ ", expected ".toList) ++ wanted.description = _
  simp only [List.append_assoc]

theorem message_ne {found : Value} {wanted : Wanted} {cause : Error} :
    (wrongKind found wanted).message ≠ (unreadable cause).message := by
  intro hmessage
  have hcause : (unreadable cause).message = cause.message := rfl
  rw [message_wrongKind, hcause, Error.message_eq] at hmessage
  have hkind := (eq_of_opening Error.opening_apart hmessage).1
  cases cause <;> cases hkind

/-- Refusals with one wording are the same. -/
theorem message_injective : Function.Injective message := by
  intro a b hmessage
  cases a with
  | wrongKind found wanted =>
    cases b with
    | wrongKind other otherWanted =>
      rw [message_wrongKind, message_wrongKind] at hmessage
      have htext := (eq_of_opening Error.opening_apart hmessage).2
      obtain rfl := Wanted.description_suffix htext
      have hfound := List.append_cancel_right (List.append_cancel_right htext)
      rw [Value.description_injective hfound]
    | unreadable cause => exact absurd hmessage message_ne
  | unreadable cause =>
    cases b with
    | wrongKind other otherWanted => exact absurd hmessage.symm message_ne
    | unreadable other => exact congrArg unreadable (Error.message_injective hmessage)

end Refusal

/-- A document keeps a version whole, its build included. -/
theorem readVersion_ofVersion {v : Version} (hv : v.WellFormed) :
    readVersion (ofVersion v) = .ok v := by
  rw [ofVersion, readVersion, Version.read_fullText hv]
  rfl

end Document

end SemanticVersions
