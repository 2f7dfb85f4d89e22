import SemanticVersions.Proofs.Range.CommonVersion
import SemanticVersions.Proofs.Range.Symmetry

/-!
# The strongest limits of an alternative

Whether an alternative is satisfiable is asked of its comparators two at a time.  All pairs of
bounds leave room exactly if the strongest lower bound and the strongest upper bound do: every
other bound is weaker than one of them, and a weaker bound leaves no less room.  An equality
decides alone, as its version is the only one that is left.  None of this depends on the order of
the comparators.
-/

namespace SemanticVersions

open Std

namespace Comparator

/-! ### Limits -/

/-- The version that a bound names, and whether it may be taken itself. -/
structure Limit where
  version : Version
  inclusive : Bool
deriving DecidableEq, Repr

/-- The limit that a comparator sets if its operator has the wanted direction. -/
def limit? (inDirection : Operator → Bool) : Comparator → Option Limit
  | any => none
  | bound operator version =>
    if inDirection operator then some ⟨version, operator.isInclusive⟩ else none

/-- Compares limits of one direction, in which `order` leads to stronger ones.  Of two limits at
one version the exclusive one is the stronger. -/
def compareStrength (order : Version → Version → Ordering) (a b : Limit) : Ordering :=
  (order a.version b.version).then (compare b.inclusive a.inclusive)

def strongest? (order : Version → Version → Ordering) : List Limit → Option Limit
  | [] => none
  | limit :: limits =>
    match strongest? order limits with
    | none => some limit
    | some best => if (compareStrength order limit best).isLE then some best else some limit

/-- The strongest lower limit: the greatest version, and exclusive rather than inclusive. -/
def strongestLower? (comparators : List Comparator) : Option Limit :=
  strongest? compare (comparators.filterMap (limit? Operator.isLower))

/-- The strongest upper limit: the least version, and exclusive rather than inclusive. -/
def strongestUpper? (comparators : List Comparator) : Option Limit :=
  strongest? (fun v w => compare w v) (comparators.filterMap (limit? Operator.isUpper))

/-- Whether a version lies between two limits or is taken by both. -/
def LeavesRoom (order : Version → Version → Ordering) (a b : Limit) : Prop :=
  order a.version b.version = .lt ∨
    (order a.version b.version = .eq ∧ a.inclusive = true ∧ b.inclusive = true)

theorem limit?_eq_some_iff {inDirection : Operator → Bool} {c : Comparator} {limit : Limit} :
    limit? inDirection c = some limit ↔
      ∃ operator, c = bound operator limit.version ∧ inDirection operator = true ∧
        operator.isInclusive = limit.inclusive := by
  cases c with
  | any => simp [limit?]
  | bound operator version =>
    rw [limit?, Option.ite_none_right_eq_some, Option.some.injEq]
    constructor
    · rintro ⟨hdirection, rfl⟩
      exact ⟨operator, rfl, hdirection, rfl⟩
    · rintro ⟨operator, hbound, hdirection, hinclusive⟩
      cases hbound
      exact ⟨hdirection, by rw [hinclusive]⟩

/-! ### The strongest limit -/

section Strength

variable {order : Version → Version → Ordering} {limits : List Limit} {best : Limit}

theorem strongest?_eq_none_iff : strongest? order limits = none ↔ limits = [] := by
  cases limits with
  | nil => simp [strongest?]
  | cons limit limits =>
    rw [strongest?]
    split
    · simp
    · split <;> simp

theorem leavesRoom_swap {a b : Limit} :
    LeavesRoom (fun v w => order w v) b a ↔ LeavesRoom order a b := by
  rw [LeavesRoom, LeavesRoom, and_comm (a := b.inclusive = true)]

variable [TransCmp order]

instance : TransCmp fun a b : Limit => order a.version b.version where
  eq_swap {a b} := by
    have hswap : order a.version b.version = (order b.version a.version).swap :=
      OrientedCmp.eq_swap
    exact hswap
  isLE_trans {a b c} := by
    have hle : (order a.version b.version).isLE → (order b.version c.version).isLE →
        (order a.version c.version).isLE := TransCmp.isLE_trans
    exact hle

instance : TransCmp fun a b : Limit => compare b.inclusive a.inclusive :=
  inferInstanceAs (TransCmp fun a b : Limit => compareOn Limit.inclusive b a)

instance : TransCmp (compareStrength order) :=
  inferInstanceAs (TransCmp (compareLex (fun a b : Limit => order a.version b.version)
    fun a b : Limit => compare b.inclusive a.inclusive))

/-- The strongest limit is one of the limits, and none of them is stronger. -/
theorem strongest?_spec (hbest : strongest? order limits = some best) :
    best ∈ limits ∧ ∀ limit ∈ limits, (compareStrength order limit best).isLE = true := by
  induction limits generalizing best with
  | nil => cases hbest
  | cons first limits ih =>
    have hself : (compareStrength order first first).isLE = true := ReflCmp.isLE_rfl
    rw [strongest?] at hbest
    split at hbest
    · next hnone =>
      cases hbest
      rw [strongest?_eq_none_iff.mp hnone]
      exact ⟨List.mem_cons_self, List.forall_mem_cons.mpr ⟨hself, List.forall_mem_nil _⟩⟩
    · next later hlater =>
      obtain ⟨hmem, hall⟩ := ih hlater
      split at hbest
      · next hle =>
        cases hbest
        exact ⟨List.mem_cons_of_mem first hmem, List.forall_mem_cons.mpr ⟨hle, hall⟩⟩
      · next hnot =>
        cases hbest
        have hless : (compareStrength order later first).isLE = true := by
          rw [← OrientedCmp.isGE_iff_isLE]
          cases hcompare : compareStrength order first later <;> simp_all
        refine ⟨List.mem_cons_self, List.forall_mem_cons.mpr ⟨hself, ?_⟩⟩
        exact fun limit hlimit => TransCmp.isLE_trans (hall limit hlimit) hless

/-- A weaker limit leaves no less room. -/
theorem LeavesRoom.of_weaker {near far : Limit} (hroom : LeavesRoom order best far)
    (hweaker : (compareStrength order near best).isLE = true) : LeavesRoom order near far := by
  rw [compareStrength] at hweaker
  cases hcompare : order near.version best.version with
  | lt =>
    have hle : (order best.version far.version).isLE = true := by
      rcases hroom with hless | ⟨hsame, -, -⟩
      · rw [hless]
        rfl
      · rw [hsame]
        rfl
    exact .inl (TransCmp.lt_of_lt_of_isLE hcompare hle)
  | eq =>
    rw [LeavesRoom, TransCmp.congr_left hcompare]
    refine hroom.imp_right fun ⟨hsame, hbest, hfar⟩ => ⟨hsame, ?_, hfar⟩
    rw [hcompare, hbest] at hweaker
    cases hnear : near.inclusive with
    | true => rfl
    | false =>
      rw [hnear] at hweaker
      cases hweaker
  | gt =>
    rw [hcompare] at hweaker
    cases hweaker

end Strength

/-- Each lower limit leaves room under each upper limit exactly if the strongest ones do. -/
theorem leavesRoom_iff_strongest {lowers uppers : List Limit} :
    (∀ lower ∈ lowers, ∀ upper ∈ uppers, LeavesRoom compare lower upper) ↔
      strongest? compare lowers = none ∨ strongest? (fun v w => compare w v) uppers = none ∨
        ∃ lower upper, strongest? compare lowers = some lower ∧
          strongest? (fun v w => compare w v) uppers = some upper ∧
            LeavesRoom compare lower upper := by
  cases hlower : strongest? compare lowers with
  | none => simp [strongest?_eq_none_iff.mp hlower]
  | some lower =>
    cases hupper : strongest? (fun v w => compare w v) uppers with
    | none => simp [strongest?_eq_none_iff.mp hupper]
    | some upper =>
      obtain ⟨hlowerMem, hlowerMost⟩ := strongest?_spec hlower
      obtain ⟨hupperMem, hupperMost⟩ := strongest?_spec hupper
      simp only [reduceCtorEq, false_or, Option.some.injEq, exists_and_left, exists_eq_left']
      constructor
      · intro hall
        exact hall lower hlowerMem upper hupperMem
      · intro hroom near hnear far hfar
        have hnearRoom := hroom.of_weaker (hlowerMost near hnear)
        rw [← leavesRoom_swap] at hnearRoom ⊢
        exact hnearRoom.of_weaker (hupperMost far hfar)

/-! ### Pairs of comparators -/

theorem mem_limits_iff {inDirection : Operator → Bool} {comparators : List Comparator}
    {limit : Limit} :
    limit ∈ comparators.filterMap (limit? inDirection) ↔
      ∃ operator, bound operator limit.version ∈ comparators ∧ inDirection operator = true ∧
        operator.isInclusive = limit.inclusive := by
  simp only [List.mem_filterMap, limit?_eq_some_iff]
  constructor
  · rintro ⟨c, hc, operator, rfl, hdirection, hinclusive⟩
    exact ⟨operator, hc, hdirection, hinclusive⟩
  · rintro ⟨operator, hc, hdirection, hinclusive⟩
    exact ⟨_, hc, operator, rfl, hdirection, hinclusive⟩

section Pairs

variable {comparators : List Comparator} (hwellFormed : ∀ c ∈ comparators, c.WellFormed)
variable (hany : .any ∉ comparators)

include hwellFormed hany

/-- An alternative is satisfiable if every two of its comparators intersect. -/
theorem isSatisfiable_iff_forall :
    isSatisfiable comparators = true ↔
      ∀ c ∈ comparators, ∀ d ∈ comparators, c.intersects d = true := by
  have hne : ∀ c ∈ comparators, c ≠ any := by
    rintro c hc rfl
    exact hany hc
  constructor
  · intro hsatisfiable c hc d hd
    have htouch := Range.touch_of_isSatisfiable hwellFormed hsatisfiable c hc d hd
    exact htouch.intersects (hne c hc) (hne d hd)
  · intro hall
    rw [Range.isSatisfiable_iff]
    exact List.pairwise_of_forall_mem_list fun c hc d hd => hall d hd c hc

/-- Whether bounds are satisfiable does not depend on their order. -/
theorem isSatisfiable_of_perm {others : List Comparator} (hperm : others.Perm comparators) :
    isSatisfiable others = isSatisfiable comparators := by
  have hothers : ∀ c ∈ others, c.WellFormed := fun c hc =>
    hwellFormed c (hperm.mem_iff.mp hc)
  rw [Bool.eq_iff_iff, isSatisfiable_iff_forall hwellFormed hany,
    isSatisfiable_iff_forall hothers (mt hperm.mem_iff.mp hany)]
  simp only [hperm.mem_iff]

/-- Without equalities only a lower and an upper bound can be apart. -/
theorem isSatisfiable_iff_leavesRoom (hequal : ∀ a, .bound .equal a ∉ comparators) :
    isSatisfiable comparators = true ↔
      ∀ lower ∈ comparators.filterMap (limit? Operator.isLower),
        ∀ upper ∈ comparators.filterMap (limit? Operator.isUpper),
          LeavesRoom compare lower upper := by
  rw [isSatisfiable_iff_forall hwellFormed hany]
  constructor
  · rintro hall ⟨a, _⟩ hlower ⟨b, _⟩ hupper
    obtain ⟨lower, hc, hisLower, rfl⟩ := mem_limits_iff.mp hlower
    obtain ⟨upper, hd, hisUpper, rfl⟩ := mem_limits_iff.mp hupper
    exact (intersects_opposite_iff hisLower hisUpper (hwellFormed _ hc).2
      (hwellFormed _ hd).2).mp (hall _ hc _ hd)
  · intro hroom
    have hopposite : ∀ {lower upper : Operator} {a b : Version}, bound lower a ∈ comparators →
        bound upper b ∈ comparators → lower.isLower = true → upper.isUpper = true →
          (bound lower a).intersects (bound upper b) = true := by
      intro lower upper a b hc hd hlower hupper
      rw [intersects_opposite_iff hlower hupper (hwellFormed _ hc).2 (hwellFormed _ hd).2]
      exact hroom ⟨a, lower.isInclusive⟩ (mem_limits_iff.mpr ⟨lower, hc, hlower, rfl⟩)
        ⟨b, upper.isInclusive⟩ (mem_limits_iff.mpr ⟨upper, hd, hupper, rfl⟩)
    intro c hc d hd
    cases c with
    | any => exact absurd hc hany
    | bound operatorA a =>
      cases d with
      | any => exact absurd hd hany
      | bound operatorB b =>
        have hequalA : operatorA ≠ .equal := fun hsame => hequal a (hsame ▸ hc)
        have hequalB : operatorB ≠ .equal := fun hsame => hequal b (hsame ▸ hd)
        rcases Operator.direction_of_hasSign (hwellFormed _ hc).1 hequalA with hA | hA <;>
          rcases Operator.direction_of_hasSign (hwellFormed _ hd).1 hequalB with hB | hB
        · rw [intersects_bounds hequalA hequalB, boundsIntersect, hA.1, hB.1]
          rfl
        · exact hopposite hc hd hA.1 hB.2
        · rw [intersects_comm (by simp) (by simp)]
          exact hopposite hd hc hB.1 hA.2
        · rw [intersects_bounds hequalA hequalB, boundsIntersect, hA.2, hB.2, Bool.and_self,
            Bool.or_true, Bool.true_or, Bool.true_or, Bool.true_or]

/-- An alternative with limits is satisfiable exactly if its strongest limits leave room. -/
theorem isSatisfiable_iff_strongest (hequal : ∀ a, .bound .equal a ∉ comparators) :
    isSatisfiable comparators = true ↔
      strongestLower? comparators = none ∨ strongestUpper? comparators = none ∨
        ∃ lower upper, strongestLower? comparators = some lower ∧
          strongestUpper? comparators = some upper ∧ LeavesRoom compare lower upper :=
  (isSatisfiable_iff_leavesRoom hwellFormed hany hequal).trans leavesRoom_iff_strongest

end Pairs

/-- An equality with a release is met together with the others exactly if its version meets
them. -/
theorem isSatisfiable_iff_test {comparators : List Comparator}
    (hwellFormed : ∀ c ∈ comparators, c.WellFormed) {a : Version}
    (hequal : .bound .equal a ∈ comparators) (hrelease : a.isPrerelease = false) :
    isSatisfiable comparators = true ↔ ∀ c ∈ comparators, c.test a = true := by
  have hnone : a.isPrerelease ≠ true := Bool.eq_false_iff.mp hrelease
  constructor
  · intro hsatisfiable c hc
    exact (Range.touch_of_isSatisfiable hwellFormed hsatisfiable _ hequal c hc).test_of_equal
  · intro htest
    have hmet : ∀ c ∈ comparators, Met a c := fun c hc =>
      ⟨hwellFormed c hc, htest c hc, fun hprerelease => absurd hprerelease hnone⟩
    rw [Range.isSatisfiable_iff_pairwise hmet]
    exact List.pairwise_of_forall fun c d hprerelease => absurd hprerelease hnone

end Comparator

namespace Range

open Comparator

/-- The pairs of an alternative decide what its strongest limits decide.  With an equality in it
an alternative is satisfiable exactly if the version of the equality meets all comparators.
Without one it is exactly if there is no lower or no upper limit, or the strongest lower limit
comes before the strongest upper one, or both take the same version.  The order of the
comparators does not matter. -/
theorem satisfiable_by_strongest_limits {s : Text} {range : Range} (hread : read s = .ok range)
    {comparators : List Comparator} (hmem : comparators ∈ range.alternatives)
    (hany : .any ∉ comparators) (hrelease : ∀ c ∈ comparators, c.equalsPrerelease = false) :
    (∀ a, .bound .equal a ∈ comparators →
        (isSatisfiable comparators = true ↔ ∀ c ∈ comparators, c.test a = true)) ∧
      ((∀ a, .bound .equal a ∉ comparators) →
        (isSatisfiable comparators = true ↔
          strongestLower? comparators = none ∨ strongestUpper? comparators = none ∨
            ∃ lower upper, strongestLower? comparators = some lower ∧
              strongestUpper? comparators = some upper ∧
                (compare lower.version upper.version = .lt ∨
                  (compare lower.version upper.version = .eq ∧
                    lower.inclusive = true ∧ upper.inclusive = true)))) ∧
      ∀ others, others.Perm comparators → isSatisfiable others = isSatisfiable comparators := by
  have hwellFormed := ((reduced_of_read hread).simplified comparators hmem).wellFormed
  refine ⟨fun a hequal => isSatisfiable_iff_test hwellFormed hequal (hrelease _ hequal), ?_,
    fun others => isSatisfiable_of_perm hwellFormed hany⟩
  exact fun hequal => isSatisfiable_iff_strongest hwellFormed hany hequal

/-- The comparators `>=1.2.3 >1.2.3 <=1.2.3`. -/
def tiedSample : List Comparator :=
  [.bound .greaterEqual ⟨1, 2, 3, [], []⟩, .bound .greater ⟨1, 2, 3, [], []⟩,
    .bound .lessEqual ⟨1, 2, 3, [], []⟩]

/-- Of two lower bounds at one version the exclusive one counts, and an equality needs no
limits. -/
theorem satisfiable_by_strongest_limits_ties :
    ∃ range, read ">=1.2.3 >1.2.3 <=1.2.3 || 1.2.3 >=1.2.0".toList = .ok range ∧
      tiedSample ∈ range.alternatives ∧ isSatisfiable tiedSample = false ∧
        isSatisfiable tiedSample.reverse = false ∧
          ∃ pinned ∈ range.alternatives, isSatisfiable pinned = true := by
  have hread : read ">=1.2.3 >1.2.3 <=1.2.3 || 1.2.3 >=1.2.0".toList =
      .ok ⟨">=1.2.3 >1.2.3 <=1.2.3 || 1.2.3 >=1.2.0".toList,
        [tiedSample, [.bound .equal ⟨1, 2, 3, [], []⟩, .bound .greaterEqual ⟨1, 2, 0, [], []⟩]]⟩ :=
    read_of_toOption (by decide +kernel)
  have htied := satisfiable_by_strongest_limits hread List.mem_cons_self (by decide) (by decide)
  have hpinned := satisfiable_by_strongest_limits hread
    (List.mem_cons_of_mem _ List.mem_cons_self) (by decide) (by decide)
  have hlower : strongestLower? tiedSample = some ⟨⟨1, 2, 3, [], []⟩, false⟩ := by decide
  have hupper : strongestUpper? tiedSample = some ⟨⟨1, 2, 3, [], []⟩, true⟩ := by decide
  have happart : isSatisfiable tiedSample = false := by
    rw [Bool.eq_false_iff, Ne, htied.2.1 (by simp [tiedSample]), hlower, hupper]
    simp
  refine ⟨_, hread, List.mem_cons_self, happart, ?_, _, List.mem_cons_of_mem _ List.mem_cons_self,
    (hpinned.1 ⟨1, 2, 3, [], []⟩ List.mem_cons_self).mpr (by decide)⟩
  rw [htied.2.2 _ (List.reverse_perm _), happart]

end Range

end SemanticVersions
