import SemanticVersions.Proofs.Version.FirstDifference
import SemanticVersions.Proofs.Version.Increment
import SemanticVersions.Proofs.Version.LeastStep

/-!
# Prereleases count up

A step of a prerelease without a name raises its last number, or sets a zero behind identifiers
that have no number.  From the first step on the last number is a counter: what stands before it
and behind it stays, and it goes up by one.  So a run of such steps climbs from version to
version, and it never reaches the release that the prereleases belong to.
-/

namespace SemanticVersions

open Std

theorem toNat_nextWord_of_lt {n : UInt64} (hroom : n.toNat < maxWord) :
    (nextWord n).toNat = n.toNat + 1 := by
  rw [toNat_nextWord]
  omega

theorem lt_nextWord {n : UInt64} (hroom : n.toNat < maxWord) : n < nextWord n := by
  rw [UInt64.lt_iff_toNat_lt, toNat_nextWord_of_lt hroom]
  omega

/-! ### Counters -/

/-- What stands before and behind the last number of identifiers. -/
structure Counter where
  front : List Identifier
  back : List Identifier
  back_textual : ∀ id ∈ back, id.isNumeric = false

def Counter.ids (counter : Counter) (n : UInt64) : List Identifier :=
  counter.front ++ .numeric n :: counter.back

theorem Counter.ids_ne_nil (counter : Counter) (n : UInt64) : counter.ids n ≠ [] := by
  simp [ids]

theorem Counter.prereleaseBefore_ids (counter : Counter) {m n : UInt64} (hless : m < n) :
    Version.PrereleaseBefore (counter.ids m) (counter.ids n) :=
  .differ counter.front counter.back counter.back (.numbers hless)

namespace Identifier

def number? : Identifier → Option UInt64
  | numeric value => some value
  | textual _ => none

def lastNumber? (ids : List Identifier) : Option UInt64 :=
  ids.reverse.findSome? number?

/-- Whether the last number among identifiers, if there is one, is below the largest word. -/
def CanRaise (ids : List Identifier) : Prop :=
  ∀ n ∈ lastNumber? ids, n.toNat < maxWord

instance (ids : List Identifier) : Decidable (CanRaise ids) :=
  Option.decidableForallMem (lastNumber? ids)

theorem number?_eq_none_iff {id : Identifier} : id.number? = none ↔ id.isNumeric = false := by
  cases id <;> simp [number?, isNumeric]

/-- Identifiers have a last number, with what stands around it, or no number at all. -/
theorem exists_counter (ids : List Identifier) :
    (∃ (counter : Counter) (n : UInt64), ids = counter.ids n) ∨
      ∀ id ∈ ids, id.isNumeric = false := by
  induction ids with
  | nil => exact .inr (List.forall_mem_nil _)
  | cons id ids ih =>
    obtain ⟨⟨front, back, hback⟩, n, rfl⟩ | hids := ih
    · exact .inl ⟨⟨id :: front, back, hback⟩, n, rfl⟩
    · cases id with
      | numeric n => exact .inl ⟨⟨[], ids, hids⟩, n, rfl⟩
      | textual text => exact .inr (List.forall_mem_cons.mpr ⟨rfl, hids⟩)

theorem lastNumber?_ids (counter : Counter) (n : UInt64) :
    lastNumber? (counter.ids n) = some n := by
  have hback : counter.back.reverse.findSome? number? = none := by
    rw [List.findSome?_eq_none_iff]
    intro id hid
    exact number?_eq_none_iff.mpr (counter.back_textual id (List.mem_reverse.mp hid))
  rw [lastNumber?, Counter.ids, List.reverse_append, List.reverse_cons, List.append_assoc,
    List.findSome?_append, hback]
  rfl

theorem canRaise_ids_iff {counter : Counter} {n : UInt64} :
    CanRaise (counter.ids n) ↔ n.toNat < maxWord := by
  rw [CanRaise, lastNumber?_ids]
  simp

theorem raiseLast?_eq_none {ids : List Identifier} (hids : ∀ id ∈ ids, id.isNumeric = false) :
    raiseLast? ids = none := by
  induction ids with
  | nil => rfl
  | cons id ids ih =>
    obtain ⟨hid, hrest⟩ := List.forall_mem_cons.mp hids
    cases id with
    | numeric n => cases hid
    | textual text => simp [raiseLast?, ih hrest]

theorem raiseLast?_ids (counter : Counter) (n : UInt64) :
    raiseLast? (counter.ids n) = some (counter.ids (nextWord n)) := by
  obtain ⟨front, back, hback⟩ := counter
  rw [Counter.ids, Counter.ids]
  induction front with
  | nil => simp [raiseLast?, raiseLast?_eq_none hback]
  | cons id front ih => simp [raiseLast?, ih]

theorem raise_ids (counter : Counter) (n : UInt64) :
    raise (counter.ids n) = counter.ids (nextWord n) := by
  rw [raise, raiseLast?_ids, Option.getD_some]

/-- Without a number a zero is put at the end. -/
theorem raise_of_no_number {ids : List Identifier} (hids : ∀ id ∈ ids, id.isNumeric = false) :
    raise ids = ids ++ [numeric 0] := by
  rw [raise, raiseLast?_eq_none hids, Option.getD_none]

/-- Raised identifiers have a counter. -/
theorem exists_raise_eq (ids : List Identifier) :
    ∃ (counter : Counter) (n : UInt64), raise ids = counter.ids n := by
  obtain ⟨counter, n, rfl⟩ | hids := exists_counter ids
  · exact ⟨counter, nextWord n, raise_ids counter n⟩
  · exact ⟨⟨ids, [], List.forall_mem_nil _⟩, 0, raise_of_no_number hids⟩

/-- Identifiers stand before the raised ones. -/
theorem prereleaseBefore_raise {ids : List Identifier} (hne : ids ≠ []) (hids : CanRaise ids) :
    Version.PrereleaseBefore ids (raise ids) := by
  obtain ⟨counter, n, rfl⟩ | htexts := exists_counter ids
  · rw [raise_ids]
    exact counter.prereleaseBefore_ids (lt_nextWord (canRaise_ids_iff.mp hids))
  · rw [raise_of_no_number htexts]
    exact .extended hne (.numeric 0) []

end Identifier

namespace Version

open Identifier

/-! ### One step -/

theorem compare_eq_lt_of_prereleaseBefore {v : Version} {a b : List Identifier}
    (hbefore : PrereleaseBefore a b) :
    compare { v with prerelease := a } { v with prerelease := b } = .lt := by
  have hrelease : compareRelease { v with prerelease := a } { v with prerelease := b } = .eq :=
    compareRelease_eq_iff.mpr ⟨rfl, rfl, rfl⟩
  rw [compare_eq_then, hrelease]
  exact comparePrerelease_eq_lt_iff.mpr hbefore

theorem increment_unnamed {v : Version} (hv : v.isPrerelease = true) {kind : ReleaseKind}
    (hkind : kind = .prerelease ∨ kind = .pre) :
    v.increment kind none = { v with prerelease := raise v.prerelease } := by
  obtain rfl | rfl := hkind
  · rw [increment, if_pos hv]
    rfl
  · rfl

def withCounter (v : Version) (counter : Counter) (n : UInt64) : Version :=
  { v with prerelease := counter.ids n }

theorem isPrerelease_withCounter (v : Version) (counter : Counter) (n : UInt64) :
    (v.withCounter counter n).isPrerelease = true := by
  simp [isPrerelease, withCounter, counter.ids_ne_nil]

/-- An increment without a name raises the counter and keeps all else. -/
theorem increment_withCounter (v : Version) (counter : Counter) (n : UInt64) {kind : ReleaseKind}
    (hkind : kind = .prerelease ∨ kind = .pre) :
    (v.withCounter counter n).increment kind none = v.withCounter counter (nextWord n) := by
  rw [increment_unnamed (v.isPrerelease_withCounter counter n) hkind]
  simp [withCounter, raise_ids]

/-! ### Runs -/

/-- The versions of a run of increments without a name, from the first one on. -/
def unnamedRun (v : Version) (kinds : List ReleaseKind) : List Version :=
  v.versionsAlong (kinds.map fun kind => (kind, none))

theorem unnamedRun_cons (v : Version) (kind : ReleaseKind) (kinds : List ReleaseKind) :
    v.unnamedRun (kind :: kinds) = v :: (v.increment kind none).unnamedRun kinds := by
  rw [unnamedRun, List.map_cons, versionsAlong, List.scanl_cons]
  rfl

theorem unnamedRun_ne_nil (v : Version) (kinds : List ReleaseKind) : v.unnamedRun kinds ≠ [] := by
  cases kinds <;> simp [unnamedRun, versionsAlong]

/-- A run of unnamed increments changes only the prerelease, and always leaves one. -/
theorem exists_prerelease_of_mem_unnamedRun {v w : Version} (hv : v.isPrerelease = true)
    {kinds : List ReleaseKind} (hkinds : ∀ kind ∈ kinds, kind = .prerelease ∨ kind = .pre)
    (hw : w ∈ v.unnamedRun kinds) : ∃ ids, ids ≠ [] ∧ w = { v with prerelease := ids } := by
  induction kinds generalizing v with
  | nil =>
    rw [List.mem_singleton.mp hw]
    exact ⟨v.prerelease, by simpa [isPrerelease] using hv, rfl⟩
  | cons kind kinds ih =>
    obtain ⟨hkind, hrest⟩ := List.forall_mem_cons.mp hkinds
    obtain ⟨counter, n, hraise⟩ := exists_raise_eq v.prerelease
    rw [unnamedRun_cons, increment_unnamed hv hkind, hraise, List.mem_cons] at hw
    obtain rfl | hw := hw
    · exact ⟨w.prerelease, by simpa [isPrerelease] using hv, rfl⟩
    · obtain ⟨ids, hids, rfl⟩ := ih (v.isPrerelease_withCounter counter n) hrest hw
      exact ⟨ids, hids, rfl⟩

/-- From a version with a counter on, each step of a run raises the counter by one. -/
theorem unnamedRun_withCounter (v : Version) (counter : Counter) {n : UInt64}
    {kinds : List ReleaseKind} (hkinds : ∀ kind ∈ kinds, kind = .prerelease ∨ kind = .pre)
    (hroom : ∀ w ∈ ((v.withCounter counter n).unnamedRun kinds).dropLast, CanRaise w.prerelease) :
    (v.withCounter counter n).unnamedRun kinds =
        (List.range (kinds.length + 1)).map (fun i => v.withCounter counter (n + .ofNat i)) ∧
      n.toNat + kinds.length ≤ maxWord := by
  induction kinds generalizing n with
  | nil =>
    have hzero : n + .ofNat 0 = n := UInt64.add_zero n
    have hrange : List.range 1 = [0] := rfl
    refine ⟨?_, Nat.le_pred_of_lt n.toNat_lt⟩
    rw [List.length_nil, hrange, List.map_singleton, hzero]
    rfl
  | cons kind kinds ih =>
    obtain ⟨hkind, hrest⟩ := List.forall_mem_cons.mp hkinds
    rw [unnamedRun_cons, List.dropLast_cons_of_ne_nil (unnamedRun_ne_nil _ _),
      List.forall_mem_cons, increment_withCounter v counter n hkind] at hroom
    obtain ⟨hfirst, hlater⟩ := hroom
    have hbelow := canRaise_ids_iff.mp hfirst
    obtain ⟨hrun, hlimit⟩ := ih hrest hlater
    rw [toNat_nextWord_of_lt hbelow] at hlimit
    have hzero : n + .ofNat 0 = n := UInt64.add_zero n
    have hshift : ∀ i : Nat, nextWord n + .ofNat i = n + .ofNat (i + 1) := by
      intro i
      rw [nextWord, if_pos hbelow, UInt64.ofNat_add, UInt64.add_assoc,
        UInt64.add_comm (.ofNat i)]
      rfl
    have hrange : List.range (kinds.length + 1 + 1) =
        0 :: (List.range (kinds.length + 1)).map Nat.succ := List.range_succ_eq_map
    constructor
    · rw [unnamedRun_cons, increment_withCounter v counter n hkind, hrun, List.length_cons,
        hrange, List.map_cons, List.map_map, hzero]
      simp only [hshift]
      rfl
    · rw [List.length_cons]
      omega

theorem toNat_add_ofNat {n : UInt64} {i : Nat} (hlimit : n.toNat + i ≤ maxWord) :
    (n + .ofNat i).toNat = n.toNat + i := by
  simp only [maxWord, UInt64.size] at hlimit
  rw [UInt64.toNat_add, UInt64.toNat_ofNat']
  omega

theorem le_add_ofNat {n : UInt64} {i : Nat} (hlimit : n.toNat + i ≤ maxWord) :
    n ≤ n + .ofNat i := by
  rw [UInt64.le_iff_toNat_le, toNat_add_ofNat hlimit]
  omega

/-- A version stands before the one with a greater counter. -/
theorem compare_withCounter {v : Version} {counter : Counter} {m n : UInt64} (hless : m < n) :
    compare (v.withCounter counter m) (v.withCounter counter n) = .lt :=
  compare_eq_lt_of_prereleaseBefore (counter.prereleaseBefore_ids hless)

theorem compare_withCounter_isLE {v : Version} {counter : Counter} {m n : UInt64} (hle : m ≤ n) :
    (compare (v.withCounter counter m) (v.withCounter counter n)).isLE = true := by
  obtain hless | rfl := UInt64.lt_or_eq_of_le hle
  · rw [compare_withCounter hless]
    rfl
  · exact ReflCmp.isLE_rfl

/-- Versions with rising counters climb. -/
theorem pairwise_withCounter (v : Version) (counter : Counter) {n : UInt64} {count : Nat}
    (hlimit : n.toNat + count ≤ maxWord) :
    ((List.range (count + 1)).map fun i => v.withCounter counter (n + .ofNat i)).Pairwise
      fun a b => compare a b = .lt := by
  rw [List.pairwise_map]
  refine List.pairwise_lt_range.imp_of_mem fun {i j} hi hj hless => ?_
  rw [List.mem_range] at hi hj
  apply compare_withCounter
  rw [UInt64.lt_iff_toNat_lt, toNat_add_ofNat (by omega), toNat_add_ofNat (by omega)]
  omega

theorem compare_increment_patch {v : Version} (hv : v.isPrerelease = true)
    {ids : List Identifier} (hids : ids ≠ []) :
    compare { v with prerelease := ids } (v.increment .patch none) = .lt := by
  rw [increment, nextPatch, if_pos hv, compare_eq_lt_iff_of_release rfl]
  exact .inr ⟨rfl, by simpa [isPrerelease] using hids⟩

/-- A run of prerelease increments without a name climbs from a prerelease on, as long as the
last number is below the largest word before each step: each version stands before all later
ones, all have the numbers and the build of the first one and stand before its release, and from
the first step on only the last number of the prerelease changes, which goes up by one. -/
theorem unnamed_run_climbs {v : Version} (hv : v.isPrerelease = true) {kinds : List ReleaseKind}
    (hkinds : ∀ kind ∈ kinds, kind = .prerelease ∨ kind = .pre)
    (hroom : ∀ w ∈ (v.unnamedRun kinds).dropLast, CanRaise w.prerelease) :
    (v.unnamedRun kinds).Pairwise (fun a b => compare a b = .lt) ∧
      (∀ w ∈ v.unnamedRun kinds, w.sameRelease v = true ∧ w.build = v.build ∧
        compare w (v.increment .patch none) = .lt) ∧
      ∃ (counter : Counter) (n : UInt64), ∀ i < kinds.length, n.toNat + i ≤ maxWord ∧
        (v.unnamedRun kinds)[i + 1]? = some (v.withCounter counter (n + .ofNat i)) := by
  have hshared : ∀ w ∈ v.unnamedRun kinds, w.sameRelease v = true ∧ w.build = v.build ∧
      compare w (v.increment .patch none) = .lt := by
    intro w hw
    obtain ⟨ids, hids, rfl⟩ := exists_prerelease_of_mem_unnamedRun hv hkinds hw
    exact ⟨sameRelease_iff.mpr (compareRelease_eq_iff.mpr ⟨rfl, rfl, rfl⟩), rfl,
      compare_increment_patch hv hids⟩
  cases kinds with
  | nil => exact ⟨List.pairwise_singleton _ _, hshared, ⟨[], [], by simp⟩, 0, by simp⟩
  | cons kind kinds =>
    obtain ⟨hkind, hrest⟩ := List.forall_mem_cons.mp hkinds
    obtain ⟨counter, n, hraise⟩ := exists_raise_eq v.prerelease
    have hstep : v.increment kind none = v.withCounter counter n := by
      rw [increment_unnamed hv hkind, hraise]
      rfl
    rw [unnamedRun_cons, List.dropLast_cons_of_ne_nil (unnamedRun_ne_nil _ _),
      List.forall_mem_cons, hstep] at hroom
    obtain ⟨hrun, hlimit⟩ := unnamedRun_withCounter v counter hrest hroom.2
    have hfirst : compare v (v.withCounter counter n) = .lt := by
      have hne : v.prerelease ≠ [] := by simpa [isPrerelease] using hv
      have hbefore := prereleaseBefore_raise hne hroom.1
      rw [hraise] at hbefore
      exact compare_eq_lt_of_prereleaseBefore hbefore
    rw [unnamedRun_cons, hstep, hrun] at hshared ⊢
    refine ⟨List.pairwise_cons.mpr ⟨?_, pairwise_withCounter v counter hlimit⟩, hshared,
      counter, n, fun i hi => ?_⟩
    · intro w hw
      obtain ⟨i, hi, rfl⟩ := List.mem_map.mp hw
      have hbound : i < kinds.length + 1 := List.mem_range.mp hi
      have hle : n ≤ n + .ofNat i := le_add_ofNat (by omega)
      exact TransCmp.lt_of_lt_of_isLE hfirst (compare_withCounter_isLE hle)
    · have hbound : i < kinds.length + 1 := hi
      refine ⟨by omega, ?_⟩
      rw [List.getElem?_cons_succ, List.getElem?_map, List.getElem?_range hbound]
      rfl

/-- The number of `1.2.3-alpha.9.beta` counts up in front of `beta`. -/
theorem unnamed_run_climbs_alphaNine :
    let v : Version :=
      ⟨1, 2, 3, [.textual "alpha".toList, .numeric 9, .textual "beta".toList], []⟩
    let kinds := [ReleaseKind.prerelease, .pre]
    v.isPrerelease = true ∧ (∀ kind ∈ kinds, kind = .prerelease ∨ kind = .pre) ∧
      (∀ w ∈ (v.unnamedRun kinds).dropLast, CanRaise w.prerelease) ∧
      (v.unnamedRun kinds).Pairwise (fun a b => compare a b = .lt) ∧
      (v.unnamedRun kinds).map text = ["1.2.3-alpha.9.beta".toList, "1.2.3-alpha.10.beta".toList,
        "1.2.3-alpha.11.beta".toList] := by
  intro v kinds
  have hv : v.isPrerelease = true := by decide
  have hkinds : ∀ kind ∈ kinds, kind = .prerelease ∨ kind = .pre := by decide
  have hroom : ∀ w ∈ (v.unnamedRun kinds).dropLast, CanRaise w.prerelease := by decide
  exact ⟨hv, hkinds, hroom, (unnamed_run_climbs hv hkinds hroom).1, by decide⟩

end Version

end SemanticVersions
