import SemanticVersions.Proofs.Range.Bounds

/-!
# Versions that begin with given numbers

A partial version stands for the versions that begin with its numbers.  They lie between the
version with zeros in place of the numbers left out and the release whose last given number is
raised by one.  To compare with one of these two is to compare the leading numbers.
-/

namespace SemanticVersions

open Std

/-! ### Numbers of a version -/

namespace Version

def numbers (v : Version) : List Nat :=
  [v.major.toNat, v.minor.toNat, v.patch.toNat]

/-- Releases compare as the lists of their numbers. -/
theorem compareRelease_eq_compare_numbers (a b : Version) :
    compareRelease a b = compare a.numbers b.numbers := by
  have hnil : compare ([] : List Nat) [] = .eq := rfl
  simp only [compareRelease, numbers, List.compare_cons_cons,
    UInt64.compare_eq_toNat_compare_toNat, hnil, Ordering.then_eq]

/-- The version with the given numbers, and zeros for those that are missing. -/
def ofNumbers (numbers : List Nat) (prerelease : List Identifier) : Version where
  major := .ofNat (numbers.getD 0 0)
  minor := .ofNat (numbers.getD 1 0)
  patch := .ofNat (numbers.getD 2 0)
  prerelease := prerelease

theorem toNat_ofNat_getD {numbers : List Nat} (hfits : ∀ n ∈ numbers, n ≤ maxWord) (i : Nat) :
    (UInt64.ofNat (numbers.getD i 0)).toNat = numbers.getD i 0 := by
  rw [UInt64.toNat_ofNat']
  apply Nat.mod_eq_of_lt
  apply Nat.lt_of_le_pred (by decide)
  rw [List.getD_eq_getElem?_getD]
  cases hi : numbers[i]? with
  | none => exact Nat.zero_le _
  | some n => exact hfits n (List.mem_of_getElem? hi)

/-- The numbers of a version are those given, with zeros behind them. -/
theorem numbers_ofNumbers {numbers : List Nat} (prerelease : List Identifier)
    (hlength : numbers.length ≤ 3) (hfits : ∀ n ∈ numbers, n ≤ maxWord) :
    (ofNumbers numbers prerelease).numbers = numbers ++ List.replicate (3 - numbers.length) 0 := by
  simp only [Version.numbers, ofNumbers, toNat_ofNat_getD hfits]
  match numbers, hlength with
  | [], _ | [_], _ | [_, _], _ | [_, _, _], _ => rfl

end Version

/-! ### The order of leading numbers -/

theorem compare_zeros_isLE (numbers : List Nat) :
    (compare (List.replicate numbers.length 0) numbers).isLE = true := by
  induction numbers with
  | nil => rfl
  | cons n rest ih =>
    rw [List.length_cons, List.replicate_succ, List.compare_cons_cons, Ordering.isLE_then_iff_or]
    rcases Nat.eq_zero_or_pos n with rfl | hpos
    · exact .inr ⟨rfl, ih⟩
    · exact .inl (Nat.compare_eq_lt.mpr hpos)

/-- Zeros behind some numbers make the least list that begins with them. -/
theorem compare_padded_isLE_iff {front numbers : List Nat}
    (hlength : front.length ≤ numbers.length) :
    (compare (front ++ List.replicate (numbers.length - front.length) 0) numbers).isLE = true ↔
      (compare front (numbers.take front.length)).isLE = true := by
  induction front generalizing numbers with
  | nil => simp [compare_zeros_isLE numbers]
  | cons n front ih =>
    match numbers, hlength with
    | m :: rest, hlength =>
      rw [List.length_cons, List.length_cons, Nat.add_sub_add_right, List.cons_append,
        List.take_succ_cons, List.compare_cons_cons, List.compare_cons_cons,
        Ordering.isLE_then_iff_or, Ordering.isLE_then_iff_or, ih (Nat.le_of_succ_le_succ hlength)]

/-- Raising the last of some numbers leads behind all lists that begin with them. -/
theorem compare_raised_eq_lt_iff {front numbers : List Nat} {last : Nat}
    (hlength : front.length < numbers.length) :
    compare numbers
        (front ++ (last + 1) :: List.replicate (numbers.length - (front.length + 1)) 0) = .lt ↔
      (compare (numbers.take (front.length + 1)) (front ++ [last])).isLE = true := by
  induction front generalizing numbers with
  | nil =>
    match numbers, hlength with
    | m :: rest, _ =>
      have hrest : compare rest (List.replicate rest.length 0) ≠ .lt := by
        rw [Ne, ← OrientedCmp.gt_iff_lt, ← Ordering.isLE_iff_ne_gt]
        exact compare_zeros_isLE rest
      have hnil : compare ([] : List Nat) [] = .eq := rfl
      rw [List.nil_append, List.take_succ_cons, List.nil_append, List.compare_cons_cons,
        List.compare_cons_cons, Ordering.then_eq_lt]
      simp only [List.length_cons, List.length_nil, Nat.zero_add, Nat.add_sub_cancel, hrest,
        and_false, or_false, List.take_zero, hnil, Ordering.then_eq, Nat.compare_eq_lt,
        Nat.isLE_compare]
      exact Nat.lt_succ_iff
  | cons n front ih =>
    match numbers, hlength with
    | m :: rest, hlength =>
      rw [List.length_cons, List.length_cons, Nat.add_sub_add_right, List.cons_append,
        List.cons_append, List.take_succ_cons, List.compare_cons_cons, List.compare_cons_cons,
        Ordering.isLE_then_iff_or, Ordering.then_eq_lt, ih (Nat.lt_of_succ_lt_succ hlength)]

/-! ### Partial versions -/

namespace Partial

def numbers : Partial → List Nat
  | any => []
  | major M => [M]
  | minor M m => [M, m]
  | full M m p _ => [M, m, p]

theorem numbers_eq_nil_iff {version : Partial} : version.numbers = [] ↔ version = any := by
  cases version <;> simp [numbers]

theorem length_numbers_le (version : Partial) : version.numbers.length ≤ 3 := by
  cases version <;> simp [numbers]

/-- The version with the numbers of a partial version, and zeros for those left out.  There is
none if a version cannot hold all that is given. -/
def floor? (version : Partial) : Option Version :=
  if ∀ n ∈ version.numbers, n ≤ maxWord then
    (version.prerelease.mapM Identifier.read?).map (.ofNumbers version.numbers)
  else
    none

/-- The release behind all versions that begin with the numbers of a partial version.  There
is none if no number is given, or if the last one cannot be raised. -/
def after? (version : Partial) : Option Version :=
  (version.numbers.getLast?.bind Bound.next?).map fun next =>
    .ofNumbers (version.numbers.dropLast ++ [next]) []

end Partial

namespace Version

/-- Compares as many numbers of a version as a partial version gives. -/
def compareLeading (v : Version) (version : Partial) : Ordering :=
  compare (v.numbers.take version.numbers.length) version.numbers

@[simp]
theorem compareLeading_any (v : Version) : v.compareLeading .any = .eq := rfl

@[simp]
theorem compareLeading_major (v : Version) (M : Nat) :
    v.compareLeading (.major M) = compare v.major.toNat M :=
  List.compare_cons_cons.trans Ordering.then_eq

@[simp]
theorem compareLeading_minor (v : Version) (M m : Nat) :
    v.compareLeading (.minor M m) =
      (compare v.major.toNat M).then (compare v.minor.toNat m) := by
  have hlast : compare [v.minor.toNat] [m] = compare v.minor.toNat m :=
    List.compare_cons_cons.trans Ordering.then_eq
  rw [← hlast]
  exact List.compare_cons_cons

@[simp]
theorem compareLeading_full (v : Version) (M m p : Nat) (prerelease : List Text) :
    v.compareLeading (.full M m p prerelease) =
      (compare v.major.toNat M).then
        ((compare v.minor.toNat m).then (compare v.patch.toNat p)) := by
  have hlast : compare [v.patch.toNat] [p] = compare v.patch.toNat p :=
    List.compare_cons_cons.trans Ordering.then_eq
  rw [← hlast, ← List.compare_cons_cons]
  exact List.compare_cons_cons

end Version

theorem isGE_then_iff_or {first second : Ordering} :
    (first.then second).isGE = true ↔ first = .gt ∨ first = .eq ∧ second.isGE = true := by
  cases first <;> simp

namespace Bound

theorem next?_eq_some_iff {n next : Nat} : next? n = some next ↔ n < maxWord ∧ next = n + 1 := by
  rw [next?, Option.ite_none_right_eq_some, Option.some.injEq, eq_comm (b := next)]

theorem next?_eq_none_iff {n : Nat} (hfits : n ≤ maxWord) : next? n = none ↔ n = maxWord := by
  simp only [next?, ite_eq_right_iff, reduceCtorEq, imp_false]
  omega

theorem ofVersion_ofNumbers {numbers : List Nat} (hfits : ∀ n ∈ numbers, n ≤ maxWord)
    (operator : Operator) (prerelease : List Identifier) :
    ofVersion operator (.ofNumbers numbers prerelease) =
      { operator, major := numbers.getD 0 0, minor := numbers.getD 1 0,
        patch := numbers.getD 2 0, prerelease := prerelease.map Identifier.text } := by
  simp only [ofVersion, Version.ofNumbers, Version.toNat_ofNat_getD hfits]

/-- The bound below a release compares with its opening. -/
theorem below_eq_ofVersion {numbers : List Nat} (hfits : ∀ n ∈ numbers, n ≤ maxWord) :
    below (numbers.getD 0 0) (numbers.getD 1 0) (numbers.getD 2 0) =
      ofVersion .less (Version.ofNumbers numbers []).opening :=
  (ofVersion_ofNumbers hfits .less [.numeric 0]).symm

end Bound

namespace Partial

variable {version : Partial} {base release : Version}

/-- A version has room for what is given if each number fits into a word and each identifier is
read. -/
theorem floor?_eq_some_iff :
    version.floor? = some base ↔
      (∀ n ∈ version.numbers, n ≤ maxWord) ∧
        ∃ ids, version.prerelease.mapM Identifier.read? = some ids ∧
          .ofNumbers version.numbers ids = base := by
  rw [floor?, Option.ite_none_right_eq_some, Option.map_eq_some_iff]

/-- Only a full version gives a prerelease. -/
theorem floor?_isPrerelease_eq_false (hbase : version.floor? = some base)
    (hfull : version.isFull = false) : base.isPrerelease = false := by
  obtain ⟨_, ids, hids, rfl⟩ := floor?_eq_some_iff.mp hbase
  rw [prerelease_of_not_isFull hfull] at hids
  cases hids
  rfl

section Read

variable {text : Text} (hread : read? text = some version) (hbase : version.floor? = some base)

include hread hbase

/-- The identifiers of a version that is read are those that are written. -/
theorem floor?_prerelease :
    (∀ id ∈ base.prerelease, id.WellFormed) ∧
      base.prerelease.map Identifier.text = version.prerelease := by
  obtain ⟨_, ids, hids, rfl⟩ := floor?_eq_some_iff.mp hbase
  obtain ⟨_, suffix, _, hparts, hsuffix, _⟩ := hasParts_of_read? hread
  have hfields : version.prerelease.all Fields.isPrereleaseField = true := by
    rw [List.all_eq_true]
    rcases hsuffix with hnone | hsuffix
    · simp [hnone]
    · rw [hsuffix]
      exact hparts.prerelease_field
  exact Identifier.map_text_of_mapM_read? hfields hids

theorem floor?_wellFormed : base.WellFormed := by
  refine ⟨(floor?_prerelease hread hbase).1, ?_⟩
  obtain ⟨_, ids, _, rfl⟩ := floor?_eq_some_iff.mp hbase
  exact List.forall_mem_nil _

theorem ofVersion_floor? (operator : Operator) :
    Bound.ofVersion operator base =
      { operator, major := version.numbers.getD 0 0, minor := version.numbers.getD 1 0,
        patch := version.numbers.getD 2 0, prerelease := version.prerelease } := by
  rw [← (floor?_prerelease hread hbase).2]
  obtain ⟨hfits, ids, _, rfl⟩ := floor?_eq_some_iff.mp hbase
  exact Bound.ofVersion_ofNumbers hfits operator ids

end Read

/-- The release behind the given numbers has the last one raised. -/
theorem after?_eq_some_iff :
    version.after? = some release ↔
      ∃ front last, version.numbers = front ++ [last] ∧ last < maxWord ∧
        .ofNumbers (front ++ [last + 1]) [] = release := by
  simp only [after?, Option.map_eq_some_iff, Option.bind_eq_some_iff, List.getLast?_eq_some_iff,
    Bound.next?_eq_some_iff]
  constructor
  · rintro ⟨_, ⟨last, ⟨front, hnumbers⟩, hlast, rfl⟩, hrelease⟩
    rw [hnumbers, List.dropLast_concat] at hrelease
    exact ⟨front, last, hnumbers, hlast, hrelease⟩
  · rintro ⟨front, last, hnumbers, hlast, hrelease⟩
    refine ⟨last + 1, ⟨last, ⟨front, hnumbers⟩, hlast, rfl⟩, ?_⟩
    rw [hnumbers, List.dropLast_concat]
    exact hrelease

/-- No release stands behind the given numbers exactly if the last one is the largest word. -/
theorem after?_eq_none_iff (hfits : ∀ n ∈ version.numbers, n ≤ maxWord)
    (hne : version.numbers ≠ []) :
    version.after? = none ↔ version.numbers.getLast? = some maxWord := by
  have hlast := List.getLast?_eq_some_getLast hne
  have hle : version.numbers.getLast hne ≤ maxWord := hfits _ (List.getLast_mem hne)
  rw [after?, hlast, Option.map_eq_none_iff, Option.bind_some, Bound.next?_eq_none_iff hle,
    Option.some.injEq]

/-- To be at or behind the least version with the given numbers is to have leading numbers at or
behind them. -/
theorem compareRelease_floor?_isLE_iff (hbase : version.floor? = some base) (v : Version) :
    (Version.compareRelease base v).isLE = true ↔ (v.compareLeading version).isGE = true := by
  obtain ⟨hfits, ids, _, rfl⟩ := floor?_eq_some_iff.mp hbase
  have hlength : version.numbers.length ≤ v.numbers.length := version.length_numbers_le
  rw [Version.compareRelease_eq_compare_numbers,
    Version.numbers_ofNumbers ids version.length_numbers_le hfits, Version.compareLeading,
    OrientedCmp.isGE_iff_isLE]
  exact compare_padded_isLE_iff hlength

/-- To be before the release of the given numbers is to have leading numbers before them. -/
theorem compareRelease_ofNumbers_eq_lt_iff (hfits : ∀ n ∈ version.numbers, n ≤ maxWord)
    (hfull : version.isFull = false) (v : Version) :
    Version.compareRelease v (.ofNumbers version.numbers []) = .lt ↔
      v.compareLeading version = .lt := by
  have hbase : version.floor? = some (.ofNumbers version.numbers []) := by
    rw [floor?, if_pos hfits, prerelease_of_not_isFull hfull]
    rfl
  rw [← not_iff_not, ← Ordering.isGE_iff_ne_lt, ← Ordering.isGE_iff_ne_lt,
    OrientedCmp.isGE_iff_isLE, compareRelease_floor?_isLE_iff hbase]

/-- To be before the release behind the given numbers is to have leading numbers at or before
them. -/
theorem compareRelease_after?_eq_lt_iff (hfits : ∀ n ∈ version.numbers, n ≤ maxWord)
    (hafter : version.after? = some release) (v : Version) :
    Version.compareRelease v release = .lt ↔ (v.compareLeading version).isLE = true := by
  obtain ⟨front, last, hnumbers, hlast, rfl⟩ := after?_eq_some_iff.mp hafter
  have hle : (front ++ [last]).length ≤ 3 := hnumbers ▸ version.length_numbers_le
  rw [List.length_append] at hle
  have hlength : front.length < v.numbers.length := hle
  have hraised : ∀ n ∈ front ++ [last + 1], n ≤ maxWord := by
    rw [List.forall_mem_append, List.forall_mem_singleton]
    exact ⟨fun n hn => hfits n (by simp [hnumbers, hn]), hlast⟩
  rw [Version.compareRelease_eq_compare_numbers,
    Version.numbers_ofNumbers [] (by rwa [List.length_append]) hraised, Version.compareLeading,
    hnumbers, List.length_append, List.length_append, List.append_assoc]
  exact compare_raised_eq_lt_iff hlength

/-! ### From a version on through some of its numbers -/

section Part

variable {part : Partial} (hpart : part.numbers <+: version.numbers)
  (hbase : version.floor? = some base)

include hpart hbase

theorem part_fits : ∀ n ∈ part.numbers, n ≤ maxWord := by
  intro n hn
  exact (floor?_eq_some_iff.mp hbase).1 n (hpart.subset hn)

/-- A version is before the release behind its own first numbers. -/
theorem compareRelease_floor?_after? (hafter : part.after? = some release) :
    Version.compareRelease base release = .lt := by
  rw [compareRelease_after?_eq_lt_iff (part_fits hpart hbase) hafter, Version.compareLeading]
  obtain ⟨hfits, ids, _, rfl⟩ := floor?_eq_some_iff.mp hbase
  obtain ⟨others, hothers⟩ := hpart
  rw [Version.numbers_ofNumbers ids version.length_numbers_le hfits, ← hothers, List.append_assoc,
    List.take_left]
  exact ReflCmp.isLE_rfl

/-- Of the prereleases only those of the given release are within the bounds. -/
theorem isWithin_part_iff (hafter : part.after? = some release) (v : Version) :
    v.IsWithin (some base) (some release) ↔
      if v.isPrerelease = true then
        version.isFull = true ∧ base.isPrerelease = true ∧ base.sameRelease v = true ∧
          (compare base v).isLE = true
      else
        (compare base v).isLE = true ∧ (v.compareLeading part).isLE = true := by
  rw [← compareRelease_after?_eq_lt_iff (part_fits hpart hbase) hafter v]
  simp only [Version.IsWithin, Option.mem_some_iff, forall_eq', exists_eq_left']
  split
  · next hv =>
    constructor
    · rintro ⟨hlower, _, hnamed⟩
      obtain ⟨hbasePrerelease, hsame⟩ := hnamed hv
      refine ⟨?_, hbasePrerelease, hsame, hlower⟩
      by_contra hfull
      rw [Bool.not_eq_true] at hfull
      rw [floor?_isPrerelease_eq_false hbase hfull] at hbasePrerelease
      cases hbasePrerelease
    · rintro ⟨_, hbasePrerelease, hsame, hlower⟩
      refine ⟨hlower, ?_, fun _ => ⟨hbasePrerelease, hsame⟩⟩
      have hequal : Version.compareRelease base v = .eq := Version.sameRelease_iff.mp hsame
      rw [← TransCmp.congr_left hequal]
      exact compareRelease_floor?_after? hpart hbase hafter
  · next hv => simp [hv]

/-- The bounds from a version on through some of its numbers can be held exactly if the last of
these can be raised.  Where no number is given there are no bounds. -/
theorem partBounds_cases {text : Text} (hread : read? text = some version)
    {bounds : Option (List Bound)} {accepts : Version → Prop}
    (hany : version = any → part = any ∧ bounds = some [] ∧ ∀ v, accepts v)
    (hbounds : version ≠ any → part ≠ any ∧
      bounds = part.after?.map (fun release => Bound.interval (some base) (some release)) ∧
        ∀ v : Version, v.isPrerelease = false →
          ((compare base v).isLE = true ∧ (v.compareLeading part).isLE = true ↔ accepts v)) :
    part.numbers.getLast? = some maxWord ∧ bounds = none ∨
      part.numbers.getLast? ≠ some maxWord ∧
        ∃ lower upper, bounds = some (Bound.interval lower upper) ∧
          (∀ base ∈ lower, base.WellFormed) ∧ ∀ v : Version, v.IsWithin lower upper ↔
            if v.isPrerelease = true then
              version.isFull = true ∧ base.isPrerelease = true ∧ base.sameRelease v = true ∧
                (compare base v).isLE = true
            else
              accepts v := by
  by_cases hversion : version = any
  · obtain ⟨rfl, rfl, haccepts⟩ := hany hversion
    subst hversion
    refine .inr ⟨by simp [numbers], none, none, rfl, by simp, fun v => ?_⟩
    simp [Version.IsWithin, haccepts, isFull]
  · obtain ⟨hne, rfl, haccepts⟩ := hbounds hversion
    have hnumbers : part.numbers ≠ [] := mt numbers_eq_nil_iff.mp hne
    have hnone := after?_eq_none_iff (part_fits hpart hbase) hnumbers
    cases hafter : part.after? with
    | none => exact .inl ⟨hnone.mp hafter, rfl⟩
    | some release =>
      refine .inr ⟨fun hlast => ?_, some base, some release, rfl, ?_, fun v => ?_⟩
      · rw [hnone.mpr hlast] at hafter
        cases hafter
      · simpa using floor?_wellFormed hread hbase
      · rw [isWithin_part_iff hpart hbase hafter]
        split
        · rfl
        · next hv => exact haccepts v (by simpa using hv)

end Part

section Raised

variable {part : Partial} (front : List Nat) {last : Nat}
  (hnumbers : part.numbers = front ++ [last]) (hfront : ∀ n ∈ front, n ≤ maxWord)

include hnumbers hfront

/-- Where the last of some numbers is raised, the bound is that of the release behind them. -/
theorem map_next?_below :
    ((Bound.next? last).map fun next =>
        Bound.below ((front ++ [next]).getD 0 0) ((front ++ [next]).getD 1 0)
          ((front ++ [next]).getD 2 0)) =
      part.after?.map fun release => Bound.ofVersion .less release.opening := by
  have hafter : part.after? =
      (Bound.next? last).map fun next => .ofNumbers (front ++ [next]) [] := by
    simp [after?, hnumbers]
  rw [hafter]
  cases hnext : Bound.next? last with
  | none => rfl
  | some next =>
    have hraised : ∀ n ∈ front ++ [next], n ≤ maxWord := by
      obtain ⟨hlast, rfl⟩ := Bound.next?_eq_some_iff.mp hnext
      rw [List.forall_mem_append, List.forall_mem_singleton]
      exact ⟨hfront, hlast⟩
    exact congrArg some (Bound.below_eq_ofVersion hraised)

theorem bind_next?_interval {lower : Bound} (hlower : lower = Bound.ofVersion .greaterEqual base) :
    ((Bound.next? last).bind fun next =>
        some [lower, .below ((front ++ [next]).getD 0 0) ((front ++ [next]).getD 1 0)
          ((front ++ [next]).getD 2 0)]) =
      part.after?.map fun release => Bound.interval (some base) (some release) := by
  have hbelow := congrArg (Option.map fun upper => [lower, upper])
    (map_next?_below front hnumbers hfront)
  rw [Option.map_map, Option.map_map, Option.map_eq_bind] at hbelow
  rw [hlower] at hbelow ⊢
  exact hbelow

end Raised

end Partial

end SemanticVersions
