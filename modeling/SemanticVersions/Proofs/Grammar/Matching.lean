import Mathlib.Data.Finset.Card
import Mathlib.Data.Finset.Range
import Mathlib.Data.List.TakeWhile
import SemanticVersions.Proofs.Grammar.Language

/-!
# Matches of patterns

The threads at a place stand for all that a program can do from there: a thread is followed
up to the instructions that take a character, and an address that was seen need not be
followed again.  So a search finds a match in a text exactly if the pattern describes some
part of it.
-/

namespace SemanticVersions.Grammar

/-! ### Places -/

def byteCount : Text → Nat
  | [] => 0
  | c :: rest => c.utf8Size + byteCount rest

theorem byteCount_append (first second : Text) :
    byteCount (first ++ second) = byteCount first + byteCount second := by
  induction first with
  | nil => simp [byteCount]
  | cons c first ih => simp [byteCount, ih, Nat.add_assoc]

theorem byteCount_eq_zero_iff {text : Text} : byteCount text = 0 ↔ text = [] := by
  cases text with
  | nil => simp [byteCount]
  | cons c rest =>
    have hpos := c.utf8Size_pos
    simp only [byteCount, reduceCtorEq, iff_false]
    omega

def placeBehind (left rest : Text) : Place where
  offset := byteCount left
  rest := rest

theorem placeBehind_append (left : Text) (c : Char) (rest : Text) :
    placeBehind (left ++ [c]) rest = { offset := byteCount left + c.utf8Size, rest } := by
  simp [placeBehind, byteCount_append, byteCount]

/-! ### Following threads -/

def successors (program : Array Instruction) (place : Place) (address : Nat) : List Nat :=
  match program[address]? with
  | some (.goto target) => [target]
  | some (.fork first second) => [first, second]
  | some (.note _) => [address + 1]
  | some .atStart => if place.offset == 0 then [address + 1] else []
  | some .atEnd => if place.rest.isEmpty then [address + 1] else []
  | _ => []

/-- Whether a thread waits at an address, for a character or at the end of its run. -/
def waits (program : Array Instruction) (address : Nat) : Bool :=
  match program[address]? with
  | some (.read _) | some .finish | none => true
  | _ => false

namespace Frontier

def Seen (frontier : Frontier) (address : Nat) : Prop :=
  frontier.seen.testBit address = true

def mark (frontier : Frontier) (address : Nat) : Frontier :=
  { frontier with seen := frontier.seen ||| (1 <<< address) }

@[simp]
theorem seen_mark {frontier : Frontier} {address other : Nat} :
    (frontier.mark address).Seen other ↔ frontier.Seen other ∨ other = address := by
  rw [Seen, mark, Nat.testBit_or, Bool.or_eq_true]
  rw [Nat.one_shiftLeft, Nat.testBit_two_pow, decide_eq_true_eq, eq_comm (a := address)]
  exact Iff.rfl

@[simp]
theorem threads_mark (frontier : Frontier) (address : Nat) :
    (frontier.mark address).threads = frontier.threads := rfl

end Frontier

section Follow

variable {program : Array Instruction} {place : Place}

/-- Following a thread that is new here. -/
theorem follow_succ (program : Array Instruction) (place : Place) (steps : Nat)
    {frontier : Frontier} {thread : Thread} (hnew : ¬ frontier.Seen thread.address) :
    ∃ notes, Frontier.follow program place (steps + 1) frontier thread =
      if waits program thread.address then
        { frontier.mark thread.address with threads := thread :: frontier.threads }
      else
        (successors program place thread.address).foldl
          (fun reached address => Frontier.follow program place steps reached { address, notes })
          (frontier.mark thread.address) := by
  have hunseen : ¬ frontier.seen.testBit thread.address = true := hnew
  rw [Frontier.follow, if_neg hunseen]
  unfold waits successors
  cases program[thread.address]? with
  | none => exact ⟨[], rfl⟩
  | some instruction =>
    cases instruction with
    | read chars => exact ⟨[], rfl⟩
    | goto target => exact ⟨thread.notes, rfl⟩
    | fork first second => exact ⟨thread.notes, rfl⟩
    | note slot => exact ⟨(slot, place) :: thread.notes, rfl⟩
    | atStart =>
      refine ⟨thread.notes, ?_⟩
      cases place.offset == 0 <;> simp [Frontier.mark]
    | atEnd =>
      refine ⟨thread.notes, ?_⟩
      cases place.rest.isEmpty <;> simp [Frontier.mark]
    | finish => exact ⟨[], rfl⟩

/-- Where a run does not wait, it goes on at a successor. -/
theorem exists_successor_of_finishesIn {steps address : Nat} {left text : Text}
    (hwaits : waits program address = false)
    (hfinishes : FinishesIn program (steps + 1) address left text) :
    ∃ next ∈ successors program (placeBehind left text) address,
      FinishesIn program steps next left text := by
  unfold waits at hwaits
  unfold successors
  rw [FinishesIn] at hfinishes
  cases hinstruction : program[address]? with
  | none => simp [hinstruction] at hwaits
  | some instruction =>
    rw [hinstruction] at hfinishes hwaits
    cases instruction with
    | read chars => cases hwaits
    | goto target => exact ⟨target, by simp, hfinishes⟩
    | fork first second =>
      rcases hfinishes with hfirst | hsecond
      · exact ⟨first, by simp, hfirst⟩
      · exact ⟨second, by simp, hsecond⟩
    | note slot => exact ⟨address + 1, by simp, hfinishes⟩
    | atStart =>
      obtain ⟨rfl, hrun⟩ := hfinishes
      exact ⟨address + 1, by simp [placeBehind, byteCount], hrun⟩
    | atEnd =>
      obtain ⟨rfl, hrun⟩ := hfinishes
      exact ⟨address + 1, by simp [placeBehind], hrun⟩
    | finish => cases hwaits

/-- A run that finishes from a successor finishes from in front of it. -/
theorem finishes_of_successor {address next : Nat} {left text : Text}
    (hnext : next ∈ successors program (placeBehind left text) address)
    (hfinishes : Finishes program next left text) : Finishes program address left text := by
  unfold successors at hnext
  rw [finishes_iff]
  cases hinstruction : program[address]? with
  | none => simp [hinstruction] at hnext
  | some instruction =>
    rw [hinstruction] at hnext
    cases instruction with
    | read chars => simp at hnext
    | goto target =>
      rw [← List.mem_singleton.mp hnext]
      exact hfinishes
    | fork first second =>
      simp only [List.mem_cons, List.not_mem_nil, or_false] at hnext
      rcases hnext with rfl | rfl
      · exact .inl hfinishes
      · exact .inr hfinishes
    | note slot =>
      rw [← List.mem_singleton.mp hnext]
      exact hfinishes
    | atStart =>
      obtain ⟨hstart, rfl⟩ : left = [] ∧ next = address + 1 := by
        simpa [placeBehind, byteCount_eq_zero_iff] using hnext
      exact ⟨hstart, hfinishes⟩
    | atEnd =>
      obtain ⟨hend, rfl⟩ : text = [] ∧ next = address + 1 := by
        simpa [placeBehind] using hnext
      exact ⟨hend, hfinishes⟩
    | finish => simp at hnext

end Follow

namespace Frontier

section Extends

variable {program : Array Instruction} {place : Place}

/-- Whether a reached address is dealt with: a thread waits there, or all successors were
reached as well. -/
def Settled (program : Array Instruction) (place : Place) (frontier : Frontier)
    (address : Nat) : Prop :=
  if waits program address then ∃ thread ∈ frontier.threads, thread.address = address
  else ∀ next ∈ successors program place address, frontier.Seen next

/-- What following threads does to a frontier: nothing is lost, and all that is reached
on the way is settled. -/
structure Extends (program : Array Instruction) (place : Place) (before after : Frontier) :
    Prop where
  seen : ∀ address, before.Seen address → after.Seen address
  threads : ∀ thread ∈ before.threads, thread ∈ after.threads
  settled : ∀ address, after.Seen address →
    before.Seen address ∨ after.Settled program place address

theorem Settled.mono {before after : Frontier} (hextends : Extends program place before after)
    {address : Nat} (hsettled : before.Settled program place address) :
    after.Settled program place address := by
  unfold Settled at hsettled ⊢
  split
  · next hwaits =>
    rw [if_pos hwaits] at hsettled
    obtain ⟨thread, hthread, haddress⟩ := hsettled
    exact ⟨thread, hextends.threads thread hthread, haddress⟩
  · next hwaits =>
    rw [if_neg hwaits] at hsettled
    exact fun next hnext => hextends.seen next (hsettled next hnext)

theorem Extends.refl (frontier : Frontier) : Extends program place frontier frontier where
  seen _ hseen := hseen
  threads _ hthread := hthread
  settled _ hseen := .inl hseen

/-- Following threads in turn extends a frontier as following them at once does. -/
theorem Extends.trans {first second third : Frontier} (hfirst : Extends program place first second)
    (hsecond : Extends program place second third) : Extends program place first third where
  seen address hseen := hsecond.seen address (hfirst.seen address hseen)
  threads thread hthread := hsecond.threads thread (hfirst.threads thread hthread)
  settled address hseen := by
    rcases hsecond.settled address hseen with hmiddle | hsettled
    · exact (hfirst.settled address hmiddle).imp_right fun hsettled => hsettled.mono hsecond
    · exact .inr hsettled

def unseen (program : Array Instruction) (frontier : Frontier) : Finset Nat :=
  (Finset.range program.size).filter fun address => frontier.seen.testBit address = false

theorem mem_unseen {frontier : Frontier} {address : Nat} :
    address ∈ frontier.unseen program ↔ address < program.size ∧ ¬ frontier.Seen address := by
  simp [unseen, Seen]

theorem Extends.card_unseen_le {before after : Frontier}
    (hextends : Extends program place before after) :
    (after.unseen program).card ≤ (before.unseen program).card := by
  apply Finset.card_le_card
  intro address hmem
  rw [mem_unseen] at hmem ⊢
  exact ⟨hmem.1, fun hseen => hmem.2 (hextends.seen address hseen)⟩

/-- Each new mark leaves fewer addresses, so following threads comes to an end. -/
theorem card_unseen_mark_lt {frontier : Frontier} {address : Nat} (hnew : ¬ frontier.Seen address)
    (hsize : address < program.size) :
    ((frontier.mark address).unseen program).card < (frontier.unseen program).card := by
  apply Finset.card_lt_card
  refine (Finset.ssubset_iff_of_subset ?_).mpr ⟨address, ?_, ?_⟩
  · intro other hmem
    rw [mem_unseen, seen_mark] at hmem
    exact mem_unseen.mpr ⟨hmem.1, fun hseen => hmem.2 (.inl hseen)⟩
  · exact mem_unseen.mpr ⟨hsize, hnew⟩
  · simp [mem_unseen]

theorem lt_size_of_not_waits {address : Nat} (hwaits : waits program address = false) :
    address < program.size := by
  apply Decidable.byContradiction
  intro hsize
  rw [waits, Array.getElem?_eq_none (Nat.le_of_not_lt hsize)] at hwaits
  cases hwaits

/-- Following one item after the other follows them all. -/
theorem extends_foldl {α : Type} {visit : Frontier → α → Frontier} {address : α → Nat} {limit : Nat}
    (hvisit : ∀ (frontier : Frontier) item, (frontier.unseen program).card < limit →
      Extends program place frontier (visit frontier item) ∧
        (visit frontier item).Seen (address item)) (items : List α) {frontier : Frontier}
    (hlimit : (frontier.unseen program).card < limit) :
    Extends program place frontier (items.foldl visit frontier) ∧
      ∀ item ∈ items, (items.foldl visit frontier).Seen (address item) := by
  induction items generalizing frontier with
  | nil => exact ⟨.refl frontier, by simp⟩
  | cons item items ih =>
    obtain ⟨hitem, hseen⟩ := hvisit frontier item hlimit
    obtain ⟨hrest, hothers⟩ := ih (Nat.lt_of_le_of_lt hitem.card_unseen_le hlimit)
    exact ⟨hitem.trans hrest, List.forall_mem_cons.mpr ⟨hrest.seen _ hseen, hothers⟩⟩

/-- Following a thread settles all that it reaches. -/
theorem extends_follow {steps : Nat} (frontier : Frontier) (thread : Thread)
    (hsteps : (frontier.unseen program).card < steps) :
    Extends program place frontier (follow program place steps frontier thread) ∧
      (follow program place steps frontier thread).Seen thread.address := by
  induction steps generalizing frontier thread with
  | zero => exact absurd hsteps (Nat.not_lt_zero _)
  | succ steps ih =>
    by_cases hold : frontier.Seen thread.address
    · have hseen : frontier.seen.testBit thread.address = true := hold
      rw [follow, if_pos hseen]
      exact ⟨.refl frontier, hold⟩
    obtain ⟨notes, hfollow⟩ := follow_succ program place steps hold
    rw [hfollow]
    by_cases hwaits : waits program thread.address = true
    · rw [if_pos hwaits]
      refine ⟨⟨fun _ hseen => seen_mark.mpr (.inl hseen),
        fun _ hmem => List.mem_cons_of_mem thread hmem, fun address hseen => ?_⟩,
        seen_mark.mpr (.inr rfl)⟩
      refine (seen_mark.mp hseen).imp_right fun heq => ?_
      rw [heq, Settled, if_pos hwaits]
      exact ⟨thread, by simp, rfl⟩
    · rw [if_neg hwaits]
      have hless := card_unseen_mark_lt hold (lt_size_of_not_waits (Bool.eq_false_iff.mpr hwaits))
      obtain ⟨hextends, hsuccessors⟩ :=
        extends_foldl (fun reached next => ih reached { address := next, notes })
          (successors program place thread.address)
          (Nat.lt_of_lt_of_le hless (Nat.le_of_lt_succ hsteps))
      refine ⟨⟨fun address hseen => ?_, hextends.threads, fun address hseen => ?_⟩, ?_⟩
      · exact hextends.seen address (seen_mark.mpr (.inl hseen))
      · rcases hextends.settled address hseen with hmarked | hsettled
        · refine (seen_mark.mp hmarked).imp_right fun heq => ?_
          rw [heq, Settled, if_neg hwaits]
          exact hsuccessors
        · exact .inr hsettled
      · exact hextends.seen _ (seen_mark.mpr (.inr rfl))

theorem card_unseen_lt (frontier : Frontier) :
    (frontier.unseen program).card < program.size + 1 := by
  have hcard := Finset.card_filter_le (Finset.range program.size)
    fun address => frontier.seen.testBit address = false
  rw [Finset.card_range] at hcard
  exact Nat.lt_succ_of_le hcard

/-- Adding a thread reaches its address and loses nothing. -/
theorem extends_add (frontier : Frontier) (thread : Thread) :
    Extends program place frontier (add program place frontier thread) ∧
      (add program place frontier thread).Seen thread.address :=
  extends_follow frontier thread (card_unseen_lt frontier)

/-! ### Threads that are followed -/

theorem mem_foldl {α : Type} {visit : Frontier → α → Frontier} {kept : Thread → Prop}
    {items : List α} (hvisit : ∀ item ∈ items, ∀ frontier : Frontier,
      ∀ thread ∈ (visit frontier item).threads, thread ∈ frontier.threads ∨ kept thread)
    {frontier : Frontier} :
    ∀ thread ∈ (items.foldl visit frontier).threads, thread ∈ frontier.threads ∨ kept thread := by
  induction items generalizing frontier with
  | nil => exact fun thread hmem => .inl hmem
  | cons item items ih =>
    obtain ⟨hitem, hitems⟩ := List.forall_mem_cons.mp hvisit
    intro thread hmem
    rcases ih hitems thread hmem with hmem | hkept
    · exact hitem frontier thread hmem
    · exact .inr hkept

/-- A thread that was reached waits, and finishes only where the thread finishes that was
followed. -/
theorem mem_follow {steps : Nat} {frontier : Frontier} {thread : Thread} {left text : Text} :
    ∀ other ∈ (follow program (placeBehind left text) steps frontier thread).threads,
      other ∈ frontier.threads ∨ waits program other.address = true ∧
        (Finishes program other.address left text → Finishes program thread.address left text) := by
  induction steps generalizing frontier thread with
  | zero => exact fun other hmem => .inl hmem
  | succ steps ih =>
    by_cases hold : frontier.Seen thread.address
    · have hseen : frontier.seen.testBit thread.address = true := hold
      rw [follow, if_pos hseen]
      exact fun other hmem => .inl hmem
    obtain ⟨notes, hfollow⟩ := follow_succ program (placeBehind left text) steps hold
    rw [hfollow]
    by_cases hwaits : waits program thread.address = true
    · rw [if_pos hwaits]
      intro other hmem
      rcases List.mem_cons.mp hmem with rfl | hmem
      · exact .inr ⟨hwaits, id⟩
      · exact .inl hmem
    · rw [if_neg hwaits]
      apply mem_foldl
      intro next hnext reached other hmem
      refine (ih other hmem).imp_right fun hother => ⟨hother.1, fun hfinishes => ?_⟩
      exact finishes_of_successor hnext (hother.2 hfinishes)

/-- Where all that was reached is settled, a run that finishes passes a waiting thread. -/
theorem exists_thread_of_finishes {frontier : Frontier} {left text : Text}
    (hsettled : ∀ address, frontier.Seen address →
      frontier.Settled program (placeBehind left text) address) {address : Nat}
    (hseen : frontier.Seen address) (hfinishes : Finishes program address left text) :
    ∃ thread ∈ frontier.threads, Finishes program thread.address left text := by
  obtain ⟨steps, hrun⟩ := hfinishes
  induction steps generalizing address with
  | zero => cases hrun
  | succ steps ih =>
    have haddress := hsettled address hseen
    unfold Settled at haddress
    by_cases hwaits : waits program address = true
    · rw [if_pos hwaits] at haddress
      obtain ⟨thread, hthread, rfl⟩ := haddress
      exact ⟨thread, hthread, steps + 1, hrun⟩
    · rw [if_neg hwaits] at haddress
      obtain ⟨next, hnext, hrun⟩ :=
        exists_successor_of_finishesIn (Bool.eq_false_iff.mpr hwaits) hrun
      exact ih (haddress next hnext) hrun

/-- The threads at a place stand for all threads that led there. -/
theorem finishes_threads_iff {threads : List Thread} {left text : Text} :
    (∃ thread ∈ (threads.foldl (add program (placeBehind left text)) empty).threads,
        Finishes program thread.address left text) ↔
      ∃ thread ∈ threads, Finishes program thread.address left text := by
  constructor
  · rintro ⟨thread, hmem, hfinishes⟩
    have hkept : ∀ other ∈ (threads.foldl (add program (placeBehind left text)) empty).threads,
        other ∈ empty.threads ∨ (Finishes program other.address left text →
          ∃ thread ∈ threads, Finishes program thread.address left text) := by
      apply mem_foldl
      intro first hfirst frontier other hother
      refine (mem_follow other hother).imp_right fun hkept hfinishes => ?_
      exact ⟨first, hfirst, hkept.2 hfinishes⟩
    rcases hkept thread hmem with hnone | hfound
    · cases hnone
    · exact hfound hfinishes
  · rintro ⟨thread, hmem, hfinishes⟩
    obtain ⟨hextends, hseen⟩ := extends_foldl (fun frontier thread _ => extends_add frontier thread)
      threads (card_unseen_lt empty)
    apply exists_thread_of_finishes _ (hseen thread hmem) hfinishes
    intro address haddress
    refine (hextends.settled address haddress).resolve_left fun hempty => ?_
    simp [Seen, empty] at hempty

theorem waits_of_mem_threads {threads : List Thread} {left text : Text} :
    ∀ thread ∈ (threads.foldl (add program (placeBehind left text)) empty).threads,
      waits program thread.address = true := by
  intro thread hmem
  have hkept : ∀ other ∈ (threads.foldl (add program (placeBehind left text)) empty).threads,
      other ∈ empty.threads ∨ waits program other.address = true := by
    apply mem_foldl
    intro first hfirst frontier other hother
    exact (mem_follow other hother).imp_right And.left
  rcases hkept thread hmem with hnone | hwaits
  · cases hnone
  · exact hwaits

end Extends

end Frontier

/-! ### Searching for matches -/

section Search

variable {program : Array Instruction}

theorem Thread.isFinished_iff {thread : Thread} :
    thread.isFinished program = true ↔ program[thread.address]? = some .finish := by
  simp [isFinished]

/-- A thread that has come to a match is finished. -/
theorem finishes_of_isFinished {thread : Thread} (hfinished : thread.isFinished program = true)
    (left text : Text) : Finishes program thread.address left text := by
  rw [finishes_iff, Thread.isFinished_iff.mp hfinished]
  trivial

/-- A waiting thread that has not come to a match has to take a character. -/
theorem finishes_iff_take {thread : Thread} (hwaits : waits program thread.address = true)
    (hgoes : thread.isFinished program = false) {left text : Text} :
    Finishes program thread.address left text ↔
      ∃ c rest taken, text = c :: rest ∧ thread.take? program c = some taken ∧
        Finishes program taken.address (left ++ [c]) rest := by
  unfold waits at hwaits
  unfold Thread.take?
  rw [finishes_iff]
  cases hinstruction : program[thread.address]? with
  | none => simp
  | some instruction =>
    rw [hinstruction] at hwaits
    cases instruction with
    | read chars =>
      constructor
      · rintro ⟨c, rest, rfl, hholds, hrest⟩
        exact ⟨c, rest, _, rfl, if_pos hholds, hrest⟩
      · rintro ⟨c, rest, taken, rfl, htake, hrest⟩
        rw [Option.ite_none_right_eq_some] at htake
        obtain ⟨hholds, rfl⟩ : chars.holds c = true ∧ _ := ⟨htake.1, Option.some.inj htake.2⟩
        exact ⟨c, rest, rfl, hholds, hrest⟩
    | finish =>
      rw [Thread.isFinished_iff.mpr hinstruction] at hgoes
      cases hgoes
    | _ => cases hwaits

/-- Where no thread has come to a match, all threads that take the next character go on. -/
theorem finished?_cons {threads : List Thread} (c : Char) (rest left : Text)
    (hnone : ∀ thread ∈ threads, thread.isFinished program = false) :
    finished? program threads (byteCount left) (c :: rest) =
      if threads.isEmpty then none
      else
        finished? program (((threads.filterMap (·.take? program c)).foldl
          (Frontier.add program (placeBehind (left ++ [c]) rest)) Frontier.empty).threads.reverse)
          (byteCount (left ++ [c])) rest := by
  have hpreferred : threads.takeWhile (!·.isFinished program) = threads :=
    List.takeWhile_eq_self_iff.mpr fun thread hthread => by simp [hnone thread hthread]
  have hhere : threads.find? (·.isFinished program) = none := by
    rw [List.find?_eq_none]
    exact fun thread hthread => by simp [hnone thread hthread]
  have hoffset : byteCount (left ++ [c]) = byteCount left + c.utf8Size := by
    simp [byteCount_append, byteCount]
  rw [finished?, hpreferred, hhere, placeBehind_append, hoffset]
  simp only [Option.or_none]

/-- A thread that has come to a match is found, whatever other threads find. -/
theorem isSome_finished?_of_isFinished {threads : List Thread} {thread : Thread}
    (hthread : thread ∈ threads) (hfinished : thread.isFinished program = true) (offset : Nat)
    (text : Text) : (finished? program threads offset text).isSome = true := by
  have hhere : (threads.find? (·.isFinished program)).isSome = true :=
    List.find?_isSome.mpr ⟨thread, hthread, hfinished⟩
  unfold finished?
  split
  · exact hhere
  · dsimp only
    split
    · exact hhere
    · rw [Option.isSome_or, hhere, Bool.or_true]

/-- A search finds a match exactly if one of its threads can finish. -/
theorem isSome_finished?_iff {threads : List Thread} (left text : Text)
    (hwaits : ∀ thread ∈ threads, waits program thread.address = true) :
    (finished? program threads (byteCount left) text).isSome = true ↔
      ∃ thread ∈ threads, Finishes program thread.address left text := by
  induction text generalizing threads left with
  | nil =>
    rw [finished?, List.find?_isSome]
    constructor
    · rintro ⟨thread, hthread, hfinished⟩
      exact ⟨thread, hthread, finishes_of_isFinished hfinished left []⟩
    · rintro ⟨thread, hthread, hfinishes⟩
      refine ⟨thread, hthread, ?_⟩
      apply Decidable.byContradiction
      intro hgoes
      rw [finishes_iff_take (hwaits thread hthread) (Bool.eq_false_iff.mpr hgoes)] at hfinishes
      obtain ⟨c, rest, taken, htext, _⟩ := hfinishes
      cases htext
  | cons c rest ih =>
    by_cases hdone : ∃ thread ∈ threads, thread.isFinished program = true
    · obtain ⟨thread, hthread, hfinished⟩ := hdone
      exact iff_of_true (isSome_finished?_of_isFinished hthread hfinished _ _)
        ⟨thread, hthread, finishes_of_isFinished hfinished left _⟩
    have hnone : ∀ thread ∈ threads, thread.isFinished program = false := fun thread hthread =>
      Bool.eq_false_iff.mpr fun hfinished => hdone ⟨thread, hthread, hfinished⟩
    have htaken : (∃ thread ∈ threads, Finishes program thread.address left (c :: rest)) ↔
        ∃ taken ∈ threads.filterMap (·.take? program c),
          Finishes program taken.address (left ++ [c]) rest := by
      constructor
      · rintro ⟨thread, hthread, hfinishes⟩
        rw [finishes_iff_take (hwaits thread hthread) (hnone thread hthread)] at hfinishes
        obtain ⟨d, tail, taken, heq, htake, hrest⟩ := hfinishes
        obtain ⟨rfl, rfl⟩ := List.cons.inj heq
        exact ⟨taken, List.mem_filterMap.mpr ⟨thread, hthread, htake⟩, hrest⟩
      · rintro ⟨taken, htaken, hrest⟩
        obtain ⟨thread, hthread, htake⟩ := List.mem_filterMap.mp htaken
        refine ⟨thread, hthread, ?_⟩
        rw [finishes_iff_take (hwaits thread hthread) (hnone thread hthread)]
        exact ⟨c, rest, taken, rfl, htake, hrest⟩
    rw [finished?_cons c rest left hnone, htaken]
    by_cases hempty : threads = []
    · simp [hempty]
    · rw [if_neg (by simpa using hempty), ih _ fun thread hthread =>
        Frontier.waits_of_mem_threads thread (List.mem_reverse.mp hthread)]
      simp only [List.mem_reverse]
      exact Frontier.finishes_threads_iff

end Search

namespace Pattern

/-- The machine finds a match at a place exactly if the pattern describes some text from there on.
-/
theorem isSome_matchAt?_iff (pattern : Pattern) (captures : Nat) (left text : Text) :
    (matchAt? pattern.program captures (placeBehind left text)).isSome = true ↔
      ∃ matched right, text = matched ++ right ∧ pattern.Fits left matched right := by
  have hstart : (∃ thread ∈ ([{ address := 0, notes := [] }].foldl
      (Frontier.add pattern.program (placeBehind left text)) Frontier.empty).threads,
        Finishes pattern.program thread.address left text) ↔
          Finishes pattern.program 0 left text := by
    rw [Frontier.finishes_threads_iff]
    simp
  have hwaits : ∀ thread ∈ ([{ address := 0, notes := [] }].foldl
      (Frontier.add pattern.program (placeBehind left text)) Frontier.empty).threads.reverse,
        waits pattern.program thread.address = true := fun thread hthread =>
    Frontier.waits_of_mem_threads thread (List.mem_reverse.mp hthread)
  have hsearch := isSome_finished?_iff left text hwaits
  simp only [List.mem_reverse] at hsearch
  rw [← finishes_program_iff, ← hstart, ← hsearch, matchAt?, Option.isSome_map]
  rfl

/-- Before the first match no place is skipped. -/
theorem freshMatch?_none (program : Array Instruction) (captures : Nat) (place : Place) :
    freshMatch? program captures none place = matchAt? program captures place := by
  have hlimit : ¬ place.offset < (none : Option Nat).getD 0 := Nat.not_lt_zero _
  rw [freshMatch?, if_neg hlimit]
  cases matchAt? program captures place with
  | none => rfl
  | some found => simp

/-- The search finds a match exactly if the pattern describes some part of the text. -/
theorem matchesFrom_ne_nil_iff (pattern : Pattern) (captures : Nat) (left text : Text) :
    matchesFrom pattern.program captures none (byteCount left) text ≠ [] ↔
      ∃ before matched right, text = before ++ matched ++ right ∧
        pattern.Fits (left ++ before) matched right := by
  -- A match at the first place is a match, and without one the search goes on behind it.
  have hplace : ∀ left text, { offset := byteCount left, rest := text } = placeBehind left text :=
    fun _ _ => rfl
  induction text generalizing left with
  | nil =>
    have hhere := isSome_matchAt?_iff pattern captures left []
    rw [matchesFrom, hplace, freshMatch?_none]
    cases hfound : matchAt? pattern.program captures (placeBehind left []) with
    | some found =>
      rw [hfound] at hhere
      obtain ⟨matched, right, htext, hfits⟩ := hhere.mp rfl
      refine iff_of_true (by simp) ⟨[], matched, right, htext, by simpa using hfits⟩
    | none =>
      refine iff_of_false (by simp) ?_
      rintro ⟨before, matched, right, htext, hfits⟩
      simp only [List.nil_eq, List.append_eq_nil_iff] at htext
      obtain ⟨⟨rfl, rfl⟩, rfl⟩ := htext
      rw [hfound] at hhere
      exact absurd (hhere.mpr ⟨[], [], rfl, by simpa using hfits⟩) (by simp)
  | cons c rest ih =>
    have hhere := isSome_matchAt?_iff pattern captures left (c :: rest)
    rw [matchesFrom, hplace, freshMatch?_none]
    cases hfound : matchAt? pattern.program captures (placeBehind left (c :: rest)) with
    | some found =>
      rw [hfound] at hhere
      obtain ⟨matched, right, htext, hfits⟩ := hhere.mp rfl
      refine iff_of_true (by simp) ⟨[], matched, right, htext, by simpa using hfits⟩
    | none =>
      have hoffset : byteCount left + c.utf8Size = byteCount (left ++ [c]) := by
        simp [byteCount_append, byteCount]
      have hlater := ih (left ++ [c])
      rw [← hoffset] at hlater
      refine Iff.trans (by simp) (hlater.trans ?_)
      constructor
      · rintro ⟨before, matched, right, rfl, hfits⟩
        exact ⟨c :: before, matched, right, rfl, by simpa using hfits⟩
      · rintro ⟨before, matched, right, htext, hfits⟩
        cases before with
        | nil =>
          rw [hfound] at hhere
          exact absurd (hhere.mpr ⟨matched, right, htext, by simpa using hfits⟩) (by simp)
        | cons d before =>
          obtain ⟨rfl, rfl⟩ := List.cons.inj htext
          exact ⟨before, matched, right, rfl, by simpa using hfits⟩

/-- A pattern is found in a text exactly if it describes some part of it. -/
theorem matchesIn_ne_nil_iff {pattern : Pattern} {text : Text} :
    pattern.matchesIn text ≠ [] ↔
      ∃ left matched right, text = left ++ matched ++ right ∧ pattern.Fits left matched right :=
  matchesFrom_ne_nil_iff pattern pattern.captures [] text

end Pattern

end SemanticVersions.Grammar
