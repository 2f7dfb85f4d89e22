import SemanticVersions.Grammar.Matching

/-!
# The texts that a pattern describes

A pattern describes texts by what stands between two others, as it can ask for the start or
the end of a text.  Its program, run from the address where it stands, comes to the end of
the pattern behind exactly these texts, whatever follows there.
-/

namespace SemanticVersions.Grammar

/-! ### Texts -/

/-- Whether a text is put together from texts of one kind; each stands behind those in
front of it. -/
inductive Repeats (kind : Text → Text → Text → Prop) : Text → Text → Text → Prop
  | none (left right : Text) : Repeats kind left [] right
  | more {left first rest right : Text} (hfirst : kind left first (rest ++ right))
      (hrest : Repeats kind (left ++ first) rest right) : Repeats kind left (first ++ rest) right

namespace Pattern

/-- Whether a pattern describes a text that stands between two others. -/
def Fits : Pattern → Text → Text → Text → Prop
  | textStart, left, matched, _ => left = [] ∧ matched = []
  | textEnd, _, matched, right => matched = [] ∧ right = []
  | one chars, _, matched, _ => ∃ c, chars.holds c = true ∧ matched = [c]
  | many chars, _, matched, _ => ∀ c ∈ matched, chars.holds c = true
  | several chars, _, matched, _ => matched ≠ [] ∧ ∀ c ∈ matched, chars.holds c = true
  | seq first second, left, matched, right =>
    ∃ front back, matched = front ++ back ∧ first.Fits left front (back ++ right) ∧
      second.Fits (left ++ front) back right
  | either first second, left, matched, right =>
    first.Fits left matched right ∨ second.Fits left matched right
  | optional inner, left, matched, right => matched = [] ∨ inner.Fits left matched right
  | repeated inner, left, matched, right => Repeats inner.Fits left matched right
  | group inner, left, matched, right => inner.Fits left matched right
  | capture inner, left, matched, right => inner.Fits left matched right

end Pattern

/-! ### Runs of programs -/

/-- Whether a program comes to a match from an address within a number of steps. -/
def FinishesIn (program : Array Instruction) : Nat → Nat → Text → Text → Prop
  | 0, _, _, _ => False
  | steps + 1, address, left, text =>
    match program[address]? with
    | some (.read chars) =>
      ∃ c rest, text = c :: rest ∧ chars.holds c = true ∧
        FinishesIn program steps (address + 1) (left ++ [c]) rest
    | some (.goto target) => FinishesIn program steps target left text
    | some (.fork first second) =>
      FinishesIn program steps first left text ∨ FinishesIn program steps second left text
    | some (.note _) => FinishesIn program steps (address + 1) left text
    | some .atStart => left = [] ∧ FinishesIn program steps (address + 1) left text
    | some .atEnd => text = [] ∧ FinishesIn program steps (address + 1) left text
    | some .finish => True
    | none => False

/-- Whether a program comes to a match from an address. -/
def Finishes (program : Array Instruction) (address : Nat) (left text : Text) : Prop :=
  ∃ steps, FinishesIn program steps address left text

theorem FinishesIn.succ {program : Array Instruction} {steps address : Nat} {left text : Text}
    (hfinishes : FinishesIn program steps address left text) :
    FinishesIn program (steps + 1) address left text := by
  induction steps generalizing address left text with
  | zero => cases hfinishes
  | succ steps ih =>
    cases hinstruction : program[address]? with
    | none => simp [FinishesIn, hinstruction] at hfinishes
    | some instruction =>
      rw [FinishesIn, hinstruction] at hfinishes ⊢
      cases instruction with
      | read chars =>
        obtain ⟨c, rest, htext, hholds, hrest⟩ := hfinishes
        exact ⟨c, rest, htext, hholds, ih hrest⟩
      | goto target => exact ih hfinishes
      | fork first second => exact hfinishes.imp ih ih
      | note slot => exact ih hfinishes
      | atStart => exact ⟨hfinishes.1, ih hfinishes.2⟩
      | atEnd => exact ⟨hfinishes.1, ih hfinishes.2⟩
      | finish => trivial

theorem FinishesIn.mono {program : Array Instruction} {steps more address : Nat}
    {left text : Text} (hfinishes : FinishesIn program steps address left text)
    (hle : steps ≤ more) : FinishesIn program more address left text := by
  induction hle with
  | refl => exact hfinishes
  | step _ ih => exact ih.succ

theorem FinishesIn.exists_succ {program : Array Instruction} {steps address : Nat}
    {left text : Text} (hfinishes : FinishesIn program steps address left text) :
    ∃ later, steps = later + 1 := by
  cases steps with
  | zero => cases hfinishes
  | succ steps => exact ⟨steps, rfl⟩

/-- What a run does at its first instruction. -/
theorem finishes_iff {program : Array Instruction} {address : Nat} {left text : Text} :
    Finishes program address left text ↔
      match program[address]? with
      | some (.read chars) =>
        ∃ c rest, text = c :: rest ∧ chars.holds c = true ∧
          Finishes program (address + 1) (left ++ [c]) rest
      | some (.goto target) => Finishes program target left text
      | some (.fork first second) =>
        Finishes program first left text ∨ Finishes program second left text
      | some (.note _) => Finishes program (address + 1) left text
      | some .atStart => left = [] ∧ Finishes program (address + 1) left text
      | some .atEnd => text = [] ∧ Finishes program (address + 1) left text
      | some .finish => True
      | none => False := by
  constructor
  · rintro ⟨steps, hfinishes⟩
    cases steps with
    | zero => cases hfinishes
    | succ steps =>
      rw [FinishesIn] at hfinishes
      cases hinstruction : program[address]? with
      | none => rwa [hinstruction] at hfinishes
      | some instruction =>
        rw [hinstruction] at hfinishes
        cases instruction with
        | read chars =>
          obtain ⟨c, rest, htext, hholds, hrest⟩ := hfinishes
          exact ⟨c, rest, htext, hholds, steps, hrest⟩
        | goto target => exact ⟨steps, hfinishes⟩
        | fork first second => exact hfinishes.imp (⟨steps, ·⟩) (⟨steps, ·⟩)
        | note slot => exact ⟨steps, hfinishes⟩
        | atStart => exact ⟨hfinishes.1, steps, hfinishes.2⟩
        | atEnd => exact ⟨hfinishes.1, steps, hfinishes.2⟩
        | finish => trivial
  · intro hrun
    have hstep : ∃ steps, FinishesIn program (steps + 1) address left text := by
      simp only [FinishesIn]
      cases hinstruction : program[address]? with
      | none => rw [hinstruction] at hrun; cases hrun
      | some instruction =>
        rw [hinstruction] at hrun
        cases instruction with
        | read chars =>
          obtain ⟨c, rest, htext, hholds, steps, hrest⟩ := hrun
          exact ⟨steps, c, rest, htext, hholds, hrest⟩
        | goto target => exact hrun
        | fork first second =>
          rcases hrun with ⟨steps, hfirst⟩ | ⟨steps, hsecond⟩
          · exact ⟨steps, .inl hfirst⟩
          · exact ⟨steps, .inr hsecond⟩
        | note slot => exact hrun
        | atStart =>
          obtain ⟨hleft, steps, hrest⟩ := hrun
          exact ⟨steps, hleft, hrest⟩
        | atEnd =>
          obtain ⟨htext, steps, hrest⟩ := hrun
          exact ⟨steps, htext, hrest⟩
        | finish => exact ⟨0, trivial⟩
    obtain ⟨steps, hfinishes⟩ := hstep
    exact ⟨steps + 1, hfinishes⟩

/-! ### The program of a pattern -/

/-- Whether instructions stand in a program from an address on. -/
def HoldsAt (program : Array Instruction) : Nat → List Instruction → Prop
  | _, [] => True
  | address, instruction :: block =>
    program[address]? = some instruction ∧ HoldsAt program (address + 1) block

@[simp]
theorem holdsAt_nil (program : Array Instruction) (address : Nat) : HoldsAt program address [] :=
  trivial

@[simp]
theorem holdsAt_cons {program : Array Instruction} {address : Nat} {instruction : Instruction}
    {block : List Instruction} :
    HoldsAt program address (instruction :: block) ↔
      program[address]? = some instruction ∧ HoldsAt program (address + 1) block :=
  Iff.rfl

/-- Instructions stand one behind the other if the second ones begin where the first ones end. -/
theorem holdsAt_append {program : Array Instruction} {address : Nat}
    {first second : List Instruction} :
    HoldsAt program address (first ++ second) ↔
      HoldsAt program address first ∧ HoldsAt program (address + first.length) second := by
  induction first generalizing address with
  | nil => simp
  | cons instruction first ih =>
    have hlength : address + 1 + first.length = address + (first.length + 1) := by omega
    simp [ih, and_assoc, hlength]

theorem holdsAt_toArray (front block : List Instruction) :
    HoldsAt (front ++ block).toArray front.length block := by
  induction block generalizing front with
  | nil => trivial
  | cons instruction block ih =>
    have hrest := ih (front ++ [instruction])
    exact ⟨by simp, by simpa using hrest⟩

namespace Pattern

def size : Pattern → Nat
  | textStart | textEnd | one _ => 1
  | many _ => 3
  | several _ => 2
  | seq first second => first.size + second.size
  | either first second => first.size + second.size + 2
  | optional inner => inner.size + 1
  | repeated inner => inner.size + 2
  | group inner => inner.size
  | capture inner => inner.size + 2

@[simp]
theorem length_compile (pattern : Pattern) (address index : Nat) :
    (pattern.compile address index).length = pattern.size := by
  induction pattern generalizing address index with
  | seq first second ihFirst ihSecond => simp [compile, size, ihFirst, ihSecond]
  | either first second ihFirst ihSecond =>
    simp only [compile, size, List.length_append, List.length_cons, ihFirst, ihSecond]
    omega
  | optional inner ih => simp [compile, size, ih]
  | repeated inner ih => simp [compile, size, ih]
  | group inner ih => simp [compile, size, ih]
  | capture inner ih => simp [compile, size, ih]
  | _ => rfl

/-! ### Placing the parts of a pattern by their sizes -/

section Parts

variable (first second inner : Pattern) (address index : Nat)

theorem compile_seq : (seq first second).compile address index =
    first.compile address index ++
      second.compile (address + first.size) (index + first.captures) := by
  rw [← length_compile first address index]
  rfl

theorem compile_either : (either first second).compile address index =
    .fork (address + 1) (address + first.size + 2) :: first.compile (address + 1) index ++
      .goto (address + first.size + 2 + second.size) ::
        second.compile (address + first.size + 2) (index + first.captures) := by
  rw [← length_compile second (address + first.size + 2) (index + first.captures),
    ← length_compile first (address + 1) index]
  rfl

theorem compile_optional : (optional inner).compile address index =
    .fork (address + 1) (address + 1 + inner.size) :: inner.compile (address + 1) index := by
  rw [← length_compile inner (address + 1) index]
  rfl

theorem compile_repeated : (repeated inner).compile address index =
    .fork (address + 1) (address + 2 + inner.size) :: inner.compile (address + 1) index ++
      [.goto address] := by
  rw [← length_compile inner (address + 1) index]
  rfl

theorem compile_capture : (capture inner).compile address index =
    .note (2 * index) :: inner.compile (address + 1) (index + 1) ++ [.note (2 * index + 1)] :=
  rfl

end Parts

end Pattern

section Compile

variable {program : Array Instruction} {address index : Nat}

theorem holdsAt_seq {first second : Pattern}
    (hcode : HoldsAt program address ((Pattern.seq first second).compile address index)) :
    HoldsAt program address (first.compile address index) ∧
      HoldsAt program (address + first.size)
        (second.compile (address + first.size) (index + first.captures)) := by
  simpa [Pattern.compile_seq, holdsAt_append] using hcode

/-- An alternative forks to its two parts, and the first one goes on behind the second. -/
theorem holdsAt_either {first second : Pattern}
    (hcode : HoldsAt program address ((Pattern.either first second).compile address index)) :
    program[address]? = some (.fork (address + 1) (address + first.size + 2)) ∧
      HoldsAt program (address + 1) (first.compile (address + 1) index) ∧
        program[address + first.size + 1]? = some (.goto (address + first.size + 2 + second.size)) ∧
          HoldsAt program (address + first.size + 2)
            (second.compile (address + first.size + 2) (index + first.captures)) := by
  have hgoto : address + 1 + first.size = address + first.size + 1 := by omega
  simpa [Pattern.compile_either, holdsAt_append, hgoto] using hcode

theorem holdsAt_optional {inner : Pattern}
    (hcode : HoldsAt program address ((Pattern.optional inner).compile address index)) :
    program[address]? = some (.fork (address + 1) (address + 1 + inner.size)) ∧
      HoldsAt program (address + 1) (inner.compile (address + 1) index) := by
  simpa [Pattern.compile_optional] using hcode

/-- A repetition forks into its part, which leads back to the fork. -/
theorem holdsAt_repeated {inner : Pattern}
    (hcode : HoldsAt program address ((Pattern.repeated inner).compile address index)) :
    program[address]? = some (.fork (address + 1) (address + 2 + inner.size)) ∧
      HoldsAt program (address + 1) (inner.compile (address + 1) index) ∧
        program[address + 1 + inner.size]? = some (.goto address) := by
  simpa [Pattern.compile_repeated, holdsAt_append] using hcode

theorem holdsAt_capture {inner : Pattern}
    (hcode : HoldsAt program address ((Pattern.capture inner).compile address index)) :
    program[address]? = some (.note (2 * index)) ∧
      HoldsAt program (address + 1) (inner.compile (address + 1) (index + 1)) ∧
        program[address + 1 + inner.size]? = some (.note (2 * index + 1)) := by
  simpa [Pattern.compile_capture, holdsAt_append] using hcode

/-! ### Loops -/

theorem finishes_of_many {chars : CharClass} {left matched right : Text}
    (hcode : HoldsAt program address ((Pattern.many chars).compile address index))
    (hclass : ∀ c ∈ matched, chars.holds c = true)
    (hend : Finishes program (address + 3) (left ++ matched) right) :
    Finishes program address left (matched ++ right) := by
  obtain ⟨hfork, hread, hgoto, -⟩ := hcode
  induction matched generalizing left with
  | nil =>
    rw [List.append_nil] at hend
    rw [finishes_iff, hfork]
    exact .inr hend
  | cons c matched ih =>
    obtain ⟨hholds, hclass⟩ := List.forall_mem_cons.mp hclass
    have hrest : Finishes program address (left ++ [c]) (matched ++ right) :=
      ih hclass (by simpa using hend)
    rw [finishes_iff, hfork]
    left
    rw [finishes_iff, hread]
    refine ⟨c, _, rfl, hholds, ?_⟩
    rw [finishes_iff, hgoto]
    exact hrest

theorem finishes_of_several {chars : CharClass} {left matched right : Text}
    (hcode : HoldsAt program address ((Pattern.several chars).compile address index))
    (hne : matched ≠ []) (hclass : ∀ c ∈ matched, chars.holds c = true)
    (hend : Finishes program (address + 2) (left ++ matched) right) :
    Finishes program address left (matched ++ right) := by
  obtain ⟨hread, hfork, -⟩ := hcode
  induction matched generalizing left with
  | nil => exact absurd rfl hne
  | cons c matched ih =>
    obtain ⟨hholds, hclass⟩ := List.forall_mem_cons.mp hclass
    rw [finishes_iff, hread]
    refine ⟨c, _, rfl, hholds, ?_⟩
    rw [finishes_iff, hfork]
    cases matched with
    | nil => exact .inr hend
    | cons d matched => exact .inl (ih (by simp) hclass (by simpa using hend))

/-- A loop comes to a match if each turn of it and the end do. -/
theorem finishes_of_repeats {kind : Text → Text → Text → Prop} {inside outside loop : Nat}
    {left matched right : Text}
    (hfork : program[address]? = some (.fork inside outside))
    (hgoto : program[loop]? = some (.goto address))
    (hturn : ∀ {left first rest}, kind left first rest →
      Finishes program loop (left ++ first) rest → Finishes program inside left (first ++ rest))
    (hrepeats : Repeats kind left matched right)
    (hend : Finishes program outside (left ++ matched) right) :
    Finishes program address left (matched ++ right) := by
  induction hrepeats with
  | none left right =>
    rw [List.append_nil] at hend
    rw [finishes_iff, hfork]
    exact .inr hend
  | more hfirst _ ih =>
    rw [← List.append_assoc] at hend
    rw [finishes_iff, hfork, List.append_assoc]
    left
    apply hturn hfirst
    rw [finishes_iff, hgoto]
    exact ih hend

/-- What a run takes in the loop of a class is a text of the class. -/
theorem many_of_finishesIn {chars : CharClass} {steps : Nat} {left text : Text}
    (hcode : HoldsAt program address ((Pattern.many chars).compile address index))
    (hfinishes : FinishesIn program steps address left text) :
    ∃ matched right later, text = matched ++ right ∧ (∀ c ∈ matched, chars.holds c = true) ∧
      later ≤ steps ∧ FinishesIn program later (address + 3) (left ++ matched) right := by
  obtain ⟨hfork, hread, hgoto, -⟩ := hcode
  induction steps using Nat.strongRecOn generalizing left text with
  | ind steps ih =>
    obtain ⟨steps, rfl⟩ := hfinishes.exists_succ
    rw [FinishesIn, hfork] at hfinishes
    rcases hfinishes with hrun | hrun
    · obtain ⟨steps, rfl⟩ := hrun.exists_succ
      rw [FinishesIn, hread] at hrun
      obtain ⟨c, rest, rfl, hholds, hrun⟩ := hrun
      obtain ⟨steps, rfl⟩ := hrun.exists_succ
      rw [FinishesIn, hgoto] at hrun
      obtain ⟨matched, right, later, rfl, hclass, hlater, hrun⟩ := ih steps (by omega) hrun
      refine ⟨c :: matched, right, later, rfl, List.forall_mem_cons.mpr ⟨hholds, hclass⟩,
        by omega, ?_⟩
      simpa using hrun
    · refine ⟨[], text, steps, rfl, by simp, by omega, ?_⟩
      rwa [List.append_nil]

theorem several_of_finishesIn {chars : CharClass} {steps : Nat} {left text : Text}
    (hcode : HoldsAt program address ((Pattern.several chars).compile address index))
    (hfinishes : FinishesIn program steps address left text) :
    ∃ matched right later, text = matched ++ right ∧
      (matched ≠ [] ∧ ∀ c ∈ matched, chars.holds c = true) ∧
        later ≤ steps ∧ FinishesIn program later (address + 2) (left ++ matched) right := by
  obtain ⟨hread, hfork, -⟩ := hcode
  induction steps using Nat.strongRecOn generalizing left text with
  | ind steps ih =>
    obtain ⟨steps, rfl⟩ := hfinishes.exists_succ
    rw [FinishesIn, hread] at hfinishes
    obtain ⟨c, rest, rfl, hholds, hrun⟩ := hfinishes
    obtain ⟨steps, rfl⟩ := hrun.exists_succ
    rw [FinishesIn, hfork] at hrun
    rcases hrun with hrun | hrun
    · obtain ⟨matched, right, later, rfl, hclass, hlater, hrun⟩ := ih steps (by omega) hrun
      refine ⟨c :: matched, right, later, rfl,
        ⟨by simp, List.forall_mem_cons.mpr ⟨hholds, hclass.2⟩⟩, by omega, ?_⟩
      simpa using hrun
    · exact ⟨[c], rest, steps, rfl, ⟨by simp, by simpa using hholds⟩, by omega, hrun⟩

/-- Each turn of a loop takes at least the step of its fork, so a run leaves the loop. -/
theorem repeats_of_finishesIn {kind : Text → Text → Text → Prop} {inside outside loop : Nat}
    {steps : Nat} {left text : Text}
    (hfork : program[address]? = some (.fork inside outside))
    (hgoto : program[loop]? = some (.goto address))
    (hturn : ∀ {steps left text}, FinishesIn program steps inside left text →
      ∃ first rest later, text = first ++ rest ∧ kind left first rest ∧ later ≤ steps ∧
        FinishesIn program later loop (left ++ first) rest)
    (hfinishes : FinishesIn program steps address left text) :
    ∃ matched right later, text = matched ++ right ∧ Repeats kind left matched right ∧
      later ≤ steps ∧ FinishesIn program later outside (left ++ matched) right := by
  induction steps using Nat.strongRecOn generalizing left text with
  | ind steps ih =>
    obtain ⟨steps, rfl⟩ := hfinishes.exists_succ
    rw [FinishesIn, hfork] at hfinishes
    rcases hfinishes with hrun | hrun
    · obtain ⟨first, rest, middle, rfl, hfirst, hmiddle, hrun⟩ := hturn hrun
      obtain ⟨middle, rfl⟩ := hrun.exists_succ
      rw [FinishesIn, hgoto] at hrun
      obtain ⟨matched, right, later, rfl, hrest, hlater, hrun⟩ := ih middle (by omega) hrun
      refine ⟨first ++ matched, right, later, (List.append_assoc ..).symm,
        .more hfirst hrest, by omega, ?_⟩
      rwa [← List.append_assoc]
    · refine ⟨[], text, steps, rfl, .none left text, by omega, ?_⟩
      rwa [List.append_nil]

/-! ### Runs through a pattern -/

/-- A run finishes from a pattern if it finishes behind a text that the pattern describes. -/
theorem finishes_of_fits {pattern : Pattern} {left matched right : Text}
    (hcode : HoldsAt program address (pattern.compile address index))
    (hfits : pattern.Fits left matched right)
    (hend : Finishes program (address + pattern.size) (left ++ matched) right) :
    Finishes program address left (matched ++ right) := by
  induction pattern generalizing address index left matched right with
  | textStart =>
    obtain ⟨rfl, rfl⟩ := hfits
    rw [finishes_iff, hcode.1]
    exact ⟨rfl, hend⟩
  | textEnd =>
    obtain ⟨rfl, rfl⟩ := hfits
    rw [List.append_nil] at hend
    rw [finishes_iff, hcode.1]
    exact ⟨rfl, hend⟩
  | one chars =>
    obtain ⟨c, hholds, rfl⟩ := hfits
    rw [finishes_iff, hcode.1]
    exact ⟨c, right, rfl, hholds, hend⟩
  | many chars => exact finishes_of_many hcode hfits hend
  | several chars => exact finishes_of_several hcode hfits.1 hfits.2 hend
  | seq first second ihFirst ihSecond =>
    obtain ⟨hfirstCode, hsecondCode⟩ := holdsAt_seq hcode
    obtain ⟨front, back, rfl, hfirst, hsecond⟩ := hfits
    rw [← List.append_assoc, Pattern.size, ← Nat.add_assoc] at hend
    rw [List.append_assoc]
    exact ihFirst hfirstCode hfirst (ihSecond hsecondCode hsecond hend)
  | either first second ihFirst ihSecond =>
    obtain ⟨hfork, hfirstCode, hgoto, hsecondCode⟩ := holdsAt_either hcode
    have hsize : address + (Pattern.either first second).size =
        address + first.size + 2 + second.size := by
      rw [Pattern.size]
      omega
    rw [hsize] at hend
    rw [finishes_iff, hfork]
    rcases hfits with hfirst | hsecond
    · left
      apply ihFirst hfirstCode hfirst
      rw [finishes_iff, Nat.add_right_comm, hgoto]
      exact hend
    · exact .inr (ihSecond hsecondCode hsecond hend)
  | optional inner ih =>
    obtain ⟨hfork, hinnerCode⟩ := holdsAt_optional hcode
    rw [Pattern.size, Nat.add_comm inner.size, ← Nat.add_assoc] at hend
    rw [finishes_iff, hfork]
    rcases hfits with rfl | hinner
    · rw [List.append_nil] at hend
      exact .inr hend
    · exact .inl (ih hinnerCode hinner hend)
  | repeated inner ih =>
    obtain ⟨hfork, hinnerCode, hgoto⟩ := holdsAt_repeated hcode
    rw [Pattern.size, Nat.add_comm inner.size, ← Nat.add_assoc] at hend
    exact finishes_of_repeats hfork hgoto
      (fun hfirst hrest => ih hinnerCode hfirst hrest) hfits hend
  | group inner ih => exact ih hcode hfits hend
  | capture inner ih =>
    obtain ⟨hopen, hinnerCode, hclose⟩ := holdsAt_capture hcode
    rw [Pattern.size] at hend
    rw [finishes_iff, hopen]
    apply ih hinnerCode hfits
    rw [finishes_iff, hclose]
    have hsize : address + 1 + inner.size + 1 = address + (inner.size + 2) := by omega
    exact hsize ▸ hend

/-- A run that finishes from a pattern has a text behind it that the pattern describes,
and needs no more steps from there on. -/
theorem fits_of_finishesIn {pattern : Pattern} {steps : Nat} {left text : Text}
    (hcode : HoldsAt program address (pattern.compile address index))
    (hfinishes : FinishesIn program steps address left text) :
    ∃ matched right later, text = matched ++ right ∧ pattern.Fits left matched right ∧
      later ≤ steps ∧
        FinishesIn program later (address + pattern.size) (left ++ matched) right := by
  induction pattern generalizing address index steps left text with
  | textStart =>
    obtain ⟨steps, rfl⟩ := hfinishes.exists_succ
    rw [FinishesIn, hcode.1] at hfinishes
    obtain ⟨rfl, hrun⟩ := hfinishes
    exact ⟨[], text, steps, rfl, ⟨rfl, rfl⟩, by omega, hrun⟩
  | textEnd =>
    obtain ⟨steps, rfl⟩ := hfinishes.exists_succ
    rw [FinishesIn, hcode.1] at hfinishes
    obtain ⟨rfl, hrun⟩ := hfinishes
    refine ⟨[], [], steps, rfl, ⟨rfl, rfl⟩, by omega, ?_⟩
    rwa [List.append_nil]
  | one chars =>
    obtain ⟨steps, rfl⟩ := hfinishes.exists_succ
    rw [FinishesIn, hcode.1] at hfinishes
    obtain ⟨c, rest, rfl, hholds, hrest⟩ := hfinishes
    exact ⟨[c], rest, steps, rfl, ⟨c, hholds, rfl⟩, by omega, hrest⟩
  | many chars => exact many_of_finishesIn hcode hfinishes
  | several chars => exact several_of_finishesIn hcode hfinishes
  | seq first second ihFirst ihSecond =>
    obtain ⟨hfirstCode, hsecondCode⟩ := holdsAt_seq hcode
    obtain ⟨front, rest, middle, rfl, hfirst, hmiddle, hrun⟩ := ihFirst hfirstCode hfinishes
    obtain ⟨back, right, later, rfl, hsecond, hlater, hrun⟩ := ihSecond hsecondCode hrun
    refine ⟨front ++ back, right, later, (List.append_assoc ..).symm,
      ⟨front, back, rfl, hfirst, hsecond⟩, by omega, ?_⟩
    rwa [← List.append_assoc, Pattern.size, ← Nat.add_assoc]
  | either first second ihFirst ihSecond =>
    obtain ⟨hfork, hfirstCode, hgoto, hsecondCode⟩ := holdsAt_either hcode
    have hsize : address + (Pattern.either first second).size =
        address + first.size + 2 + second.size := by
      rw [Pattern.size]
      omega
    rw [hsize]
    obtain ⟨steps, rfl⟩ := hfinishes.exists_succ
    rw [FinishesIn, hfork] at hfinishes
    rcases hfinishes with hrun | hrun
    · obtain ⟨matched, right, middle, rfl, hfits, hmiddle, hrun⟩ := ihFirst hfirstCode hrun
      obtain ⟨later, rfl⟩ := hrun.exists_succ
      rw [FinishesIn, Nat.add_right_comm, hgoto] at hrun
      exact ⟨matched, right, later, rfl, .inl hfits, by omega, hrun⟩
    · obtain ⟨matched, right, later, rfl, hfits, hlater, hrun⟩ := ihSecond hsecondCode hrun
      exact ⟨matched, right, later, rfl, .inr hfits, by omega, hrun⟩
  | optional inner ih =>
    obtain ⟨hfork, hinnerCode⟩ := holdsAt_optional hcode
    rw [Pattern.size, Nat.add_comm inner.size, ← Nat.add_assoc]
    obtain ⟨steps, rfl⟩ := hfinishes.exists_succ
    rw [FinishesIn, hfork] at hfinishes
    rcases hfinishes with hrun | hrun
    · obtain ⟨matched, right, later, rfl, hfits, hlater, hrun⟩ := ih hinnerCode hrun
      exact ⟨matched, right, later, rfl, .inr hfits, by omega, hrun⟩
    · refine ⟨[], text, steps, rfl, .inl rfl, by omega, ?_⟩
      rwa [List.append_nil]
  | repeated inner ih =>
    obtain ⟨hfork, hinnerCode, hgoto⟩ := holdsAt_repeated hcode
    rw [Pattern.size, Nat.add_comm inner.size, ← Nat.add_assoc]
    exact repeats_of_finishesIn hfork hgoto (fun hrun => ih hinnerCode hrun) hfinishes
  | group inner ih => exact ih hcode hfinishes
  | capture inner ih =>
    obtain ⟨hopen, hinnerCode, hclose⟩ := holdsAt_capture hcode
    have hsize : address + (Pattern.capture inner).size = address + 1 + inner.size + 1 := by
      rw [Pattern.size]
      omega
    rw [hsize]
    obtain ⟨steps, rfl⟩ := hfinishes.exists_succ
    rw [FinishesIn, hopen] at hfinishes
    obtain ⟨matched, right, middle, rfl, hfits, hmiddle, hrun⟩ := ih hinnerCode hfinishes
    obtain ⟨later, rfl⟩ := hrun.exists_succ
    rw [FinishesIn, hclose] at hrun
    exact ⟨matched, right, later, rfl, hfits, by omega, hrun⟩

/-- Runs through a pattern are the texts that it describes. -/
theorem finishes_compile_iff {pattern : Pattern} {left text : Text}
    (hcode : HoldsAt program address (pattern.compile address index)) :
    Finishes program address left text ↔
      ∃ matched right, text = matched ++ right ∧ pattern.Fits left matched right ∧
        Finishes program (address + pattern.size) (left ++ matched) right := by
  constructor
  · rintro ⟨steps, hfinishes⟩
    obtain ⟨matched, right, later, htext, hfits, _, hrun⟩ := fits_of_finishesIn hcode hfinishes
    exact ⟨matched, right, htext, hfits, later, hrun⟩
  · rintro ⟨matched, right, rfl, hfits, hrun⟩
    exact finishes_of_fits hcode hfits hrun

end Compile

/-- The program of a pattern finishes in front of the texts that the pattern describes. -/
theorem finishes_program_iff {pattern : Pattern} {left text : Text} :
    Finishes pattern.program 0 left text ↔
      ∃ matched right, text = matched ++ right ∧ pattern.Fits left matched right := by
  have hcode : HoldsAt pattern.program 0
      ((Pattern.capture pattern).compile 0 0 ++ [Instruction.finish]) := by
    exact holdsAt_toArray [] _
  rw [holdsAt_append] at hcode
  obtain ⟨hpattern, hfinish, -⟩ := hcode
  rw [Pattern.length_compile] at hfinish
  have hend : ∀ before after,
      Finishes pattern.program (0 + (Pattern.capture pattern).size) before after := by
    intro before after
    rw [finishes_iff, hfinish]
    trivial
  rw [finishes_compile_iff hpattern]
  simp only [hend, and_true]
  exact Iff.rfl

end SemanticVersions.Grammar
