import SemanticVersions.Proofs.Version.Format
import SemanticVersions.Version.Increment

/-!
# Increments keep versions well-formed

What an increment writes into a version could be read there: a raised number is a number
again, and the name of a line is taken up as the identifier that it reads as.  So a version
that was read is well-formed after every step of a run of increments, and each of these
versions is read back from its text.
-/

namespace SemanticVersions

/-! ### Identifiers -/

namespace Identifier

/-- Whether a text may name a line of prereleases: it is nonempty, has letters, digits and
hyphens only, and if it is a numeral it fits into a word. -/
def IsLineName (name : Text) : Prop :=
  name ≠ [] ∧ name.all isIdentifierChar = true ∧
    (name.all Char.isDigit = true → decimalValue name ≤ maxWord)

instance : DecidablePred IsLineName := fun name =>
  inferInstanceAs (Decidable (name ≠ [] ∧ name.all isIdentifierChar = true ∧
    (name.all Char.isDigit = true → decimalValue name ≤ maxWord)))

theorem IsLineName.ofText {name : Text} (hname : IsLineName name) : (ofText name).WellFormed := by
  obtain ⟨hne, hchars, hfits⟩ := hname
  have hnumeral : isNumeral name = name.all Char.isDigit := by simp [isNumeral, hne]
  by_cases hdigits : name.all Char.isDigit = true
  · have hread : read? name = some (numeric (UInt64.ofNat (decimalValue name))) := by
      rw [read?, hnumeral, if_pos hdigits, readWord?, if_pos (hfits hdigits)]
      rfl
    rw [Identifier.ofText, hread]
    trivial
  · have hread : read? name = some (textual name) := by
      rw [read?, hnumeral, if_neg hdigits]
    rw [Identifier.ofText, hread]
    exact ⟨hne, hchars, Bool.eq_false_iff.mpr hdigits⟩

theorem wellFormed_raiseLast? {ids raised : List Identifier} (hids : ∀ id ∈ ids, id.WellFormed)
    (hraised : raiseLast? ids = some raised) : ∀ id ∈ raised, id.WellFormed := by
  induction ids generalizing raised with
  | nil => cases hraised
  | cons first ids ih =>
    obtain ⟨hfirst, hrest⟩ := List.forall_mem_cons.mp hids
    unfold raiseLast? at hraised
    split at hraised
    · next others hothers =>
      cases hraised
      exact List.forall_mem_cons.mpr ⟨hfirst, ih hrest hothers⟩
    · cases hraised
      exact List.forall_mem_cons.mpr ⟨trivial, hrest⟩
    · cases hraised

theorem wellFormed_raise {ids : List Identifier} (hids : ∀ id ∈ ids, id.WellFormed) :
    ∀ id ∈ raise ids, id.WellFormed := by
  rw [raise]
  cases hraised : raiseLast? ids with
  | some raised => exact wellFormed_raiseLast? hids hraised
  | none => exact List.forall_mem_append.mpr ⟨hids, List.forall_mem_singleton.mpr trivial⟩

/-- The identifiers of the next prerelease are well-formed if the name may name a line. -/
theorem wellFormed_next {ids : List Identifier} {name : Option Text}
    (hids : ∀ id ∈ ids, id.WellFormed) (hname : ∀ text ∈ name, IsLineName text) :
    ∀ id ∈ next ids name, id.WellFormed := by
  cases name with
  | none => exact wellFormed_raise hids
  | some text =>
    rw [next]
    split
    · exact wellFormed_raise hids
    · have hfirst := (hname text rfl).ofText
      exact List.forall_mem_cons.mpr ⟨hfirst, List.forall_mem_singleton.mpr trivial⟩

end Identifier

namespace Version

/-! ### One step -/

section Step

variable {v : Version}

theorem WellFormed.withRelease (hv : v.WellFormed) (major minor patch : UInt64) :
    (v.withRelease major minor patch).WellFormed :=
  ⟨List.forall_mem_nil _, hv.2⟩

theorem WellFormed.nextPre (hv : v.WellFormed) {name : Option Text}
    (hname : ∀ text ∈ name, Identifier.IsLineName text) : (v.nextPre name).WellFormed :=
  ⟨Identifier.wellFormed_next hv.1 hname, hv.2⟩

theorem WellFormed.nextPatch (hv : v.WellFormed) : v.nextPatch.WellFormed := by
  rw [Version.nextPatch]
  split <;> exact hv.withRelease _ _ _

/-- An increment leaves a well-formed version. -/
theorem WellFormed.increment (hv : v.WellFormed) (kind : ReleaseKind) {name : Option Text}
    (hname : ∀ text ∈ name, Identifier.IsLineName text) :
    (v.increment kind name).WellFormed := by
  cases kind with
  | major =>
    rw [Version.increment, nextMajor]
    split <;> exact hv.withRelease _ _ _
  | minor =>
    rw [Version.increment, nextMinor]
    split <;> exact hv.withRelease _ _ _
  | patch => exact hv.nextPatch
  | premajor => exact (hv.withRelease _ _ _).nextPre hname
  | preminor => exact (hv.withRelease _ _ _).nextPre hname
  | prepatch => exact (hv.withRelease _ _ _).nextPre hname
  | prerelease =>
    rw [Version.increment]
    split
    · exact hv.nextPre hname
    · exact hv.nextPatch.nextPre hname
  | pre => exact hv.nextPre hname

/-- An increment keeps the build. -/
theorem build_increment (v : Version) (kind : ReleaseKind) (name : Option Text) :
    (v.increment kind name).build = v.build := by
  have hpatch : v.nextPatch.build = v.build := by
    rw [Version.nextPatch]
    split <;> rfl
  cases kind with
  | major =>
    rw [Version.increment, nextMajor]
    split <;> rfl
  | minor =>
    rw [Version.increment, nextMinor]
    split <;> rfl
  | patch => exact hpatch
  | prerelease =>
    rw [Version.increment]
    split
    · rfl
    · exact hpatch
  | premajor | preminor | prepatch | pre => rfl

end Step

/-! ### Runs -/

/-- The versions of a run of increments, from the first one on. -/
def versionsAlong (start : Version) (steps : List (ReleaseKind × Option Text)) : List Version :=
  steps.scanl (fun current step => current.increment step.1 step.2) start

/-- Each version of a run is well-formed if the first one is. -/
theorem wellFormed_of_mem_versionsAlong {start : Version} (hstart : start.WellFormed)
    {steps : List (ReleaseKind × Option Text)}
    (hsteps : ∀ step ∈ steps, ∀ name ∈ step.2, Identifier.IsLineName name) :
    ∀ current ∈ start.versionsAlong steps,
      current.WellFormed ∧ current.build = start.build := by
  induction steps generalizing start with
  | nil =>
    intro current hcurrent
    rw [List.mem_singleton.mp hcurrent]
    exact ⟨hstart, rfl⟩
  | cons step steps ih =>
    obtain ⟨hstep, hrest⟩ := List.forall_mem_cons.mp hsteps
    rw [versionsAlong, List.scanl_cons]
    intro current hcurrent
    rcases List.mem_cons.mp hcurrent with rfl | hcurrent
    · exact ⟨hstart, rfl⟩
    · have hnext := hstart.increment step.1 hstep
      obtain ⟨hwell, hbuild⟩ := ih hnext hrest current hcurrent
      exact ⟨hwell, hbuild.trans (build_increment start step.1 step.2)⟩

/-- Along a run of increments from a version that was read, each version is read back from its
full text, field by field, and the build stays as it was. -/
theorem increments_read_back {source : Text} {start : Version} (hstart : read source = .ok start)
    {steps : List (ReleaseKind × Option Text)}
    (hsteps : ∀ step ∈ steps, ∀ name ∈ step.2, Identifier.IsLineName name) :
    ∀ current ∈ start.versionsAlong steps,
      read current.fullText = .ok current ∧ current.build = start.build := by
  intro current hcurrent
  have hwell := wellFormed_of_read hstart
  obtain ⟨hcurrentWell, hbuild⟩ := wellFormed_of_mem_versionsAlong hwell hsteps current hcurrent
  exact ⟨read_fullText hcurrentWell, hbuild⟩

/-- The name `007` is taken up as the number seven, and the version is read back. -/
theorem increments_read_back_numeral :
    let steps := [(ReleaseKind.premajor, some "007".toList), (.prerelease, some "-5".toList)]
    read (alphaTen.fullText) = .ok alphaTen ∧
      (∀ step ∈ steps, ∀ name ∈ step.2, Identifier.IsLineName name) ∧
        ⟨2, 0, 0, [.numeric 7, .numeric 0], alphaTen.build⟩ ∈ alphaTen.versionsAlong steps ∧
          read "2.0.0-7.0+build.5".toList =
            .ok ⟨2, 0, 0, [.numeric 7, .numeric 0], alphaTen.build⟩ := by
  intro steps
  have hread : read alphaTen.fullText = .ok alphaTen := read_fullText (by decide)
  have hnames : ∀ step ∈ steps, ∀ name ∈ step.2, Identifier.IsLineName name := by decide
  have hmem : ⟨2, 0, 0, [.numeric 7, .numeric 0], alphaTen.build⟩ ∈
      alphaTen.versionsAlong steps := by decide
  have hback := (increments_read_back hread hnames _ hmem).1
  have htext : (⟨2, 0, 0, [.numeric 7, .numeric 0], alphaTen.build⟩ : Version).fullText =
      "2.0.0-7.0+build.5".toList := by decide
  rw [htext] at hback
  exact ⟨hread, hnames, hmem, hback⟩

end Version

end SemanticVersions
