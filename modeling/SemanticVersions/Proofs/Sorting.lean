import Mathlib.Data.List.Forall2
import SemanticVersions.Proofs.Selection

/-!
# Sorting as a stable arrangement

Sorting leaves out the texts that are no versions and arranges the others by precedence.  Texts
of one precedence stand together afterwards, and among themselves as they stood before, in
descending order no less than in ascending order.  There is only one such arrangement, so sorting
what is sorted changes nothing, and the precedence of the text at a place is the same for every
order of the input.
-/

namespace SemanticVersions

open Std

def Version.withoutBuild (v : Version) : Version :=
  { v with build := [] }

/-- Without their builds versions of one precedence are equal. -/
theorem Version.withoutBuild_eq_iff {v w : Version} :
    v.withoutBuild = w.withoutBuild ↔ compare v w = .eq := by
  rw [compare_eq_iff]
  cases v
  cases w
  simp [withoutBuild]

namespace Selection

/-! ### Texts of one precedence -/

/-- Whether a text denotes a version of the precedence of `v`. -/
def denotes (v : Version) (text : Text) : Bool :=
  (Version.read text).toOption.any v.isSame

/-- Whether two texts denote versions of one precedence. -/
def SameRank (a b : Text) : Prop :=
  ∃ v w, Version.read a = .ok v ∧ Version.read b = .ok w ∧ compare v w = .eq

/-- Whether a list has the version texts of another one in some order, and those of one
precedence among themselves as they stand there. -/
structure IsArrangement (before : Text → Text → Prop) (texts arranged : List Text) : Prop where
  perm : arranged.Perm (texts.filter isVersion)
  ordered : arranged.Pairwise before
  stable : ∀ v, arranged.filter (denotes v) = texts.filter (denotes v)

section Rank

variable {v : Version} {a b text : Text}

theorem denotes_iff :
    denotes v text = true ↔ ∃ w, Version.read text = .ok w ∧ compare v w = .eq := by
  rw [denotes]
  cases Version.read text with
  | ok w => simp [Except.toOption, Version.isSame]
  | error error => simp [Except.toOption]

theorem isVersion_of_denotes (hdenotes : denotes v text = true) : isVersion text = true := by
  obtain ⟨w, hread, -⟩ := denotes_iff.mp hdenotes
  exact isVersion_of_ok hread

theorem SameRank.denotes (hsame : SameRank a b) :
    ∃ v, Selection.denotes v a = true ∧ Selection.denotes v b = true := by
  obtain ⟨v, w, ha, hb, hcompare⟩ := hsame
  exact ⟨v, denotes_iff.mpr ⟨v, ha, ReflCmp.compare_self⟩, denotes_iff.mpr ⟨w, hb, hcompare⟩⟩

end Rank

/-! ### The only arrangement -/

/-- A list is told by its order and by what it holds of each precedence. -/
theorem eq_of_stable {before : Text → Text → Prop}
    (hbefore : ∀ {a b}, before a b → before b a → SameRank a b) {left right : List Text}
    (hperm : left.Perm right) (hleft : left.Pairwise before) (hright : right.Pairwise before)
    (hstable : ∀ v, left.filter (denotes v) = right.filter (denotes v)) : left = right := by
  induction left generalizing right with
  | nil => exact hperm.nil_eq
  | cons a left ih =>
    cases right with
    | nil => exact absurd hperm.eq_nil (List.cons_ne_nil a left)
    | cons b right =>
      -- Each head comes first in its list, so both have one precedence, and of that precedence
      -- both lists hold the same texts in the same order.
      have hhead : a = b := by
        by_contra hne
        have ha : a ∈ right :=
          (List.mem_cons.mp (hperm.mem_iff.mp List.mem_cons_self)).resolve_left hne
        have hb : b ∈ left :=
          (List.mem_cons.mp (hperm.mem_iff.mpr List.mem_cons_self)).resolve_left (Ne.symm hne)
        have hsame : SameRank a b :=
          hbefore (List.rel_of_pairwise_cons hleft hb) (List.rel_of_pairwise_cons hright ha)
        obtain ⟨v, hva, hvb⟩ := hsame.denotes
        have hfilter := hstable v
        rw [List.filter_cons_of_pos hva, List.filter_cons_of_pos hvb] at hfilter
        exact hne (List.cons.inj hfilter).1
      subst hhead
      have htail : left = right := by
        apply ih hperm.cons_inv hleft.of_cons hright.of_cons
        intro v
        have hfilter := hstable v
        rw [List.filter_cons, List.filter_cons] at hfilter
        split at hfilter
        · exact (List.cons.inj hfilter).2
        · exact hfilter
      rw [htail]

/-- An arrangement is an arrangement of itself. -/
theorem IsArrangement.self {before : Text → Text → Prop} {texts arranged : List Text}
    (harranged : IsArrangement before texts arranged) : IsArrangement before arranged arranged where
  perm := by
    have hall : arranged.filter isVersion = arranged := by
      rw [List.filter_eq_self]
      intro text htext
      exact (List.mem_filter.mp (harranged.perm.mem_iff.mp htext)).2
    rw [hall]
  ordered := harranged.ordered
  stable _ := rfl

/-! ### Sorting by a comparison -/

def arrange (order : Version → Version → Ordering) (texts : List Text) : List Text :=
  ((entries texts).mergeSort fun a b => (order a.1 b.1).isLE).map (·.2)

/-- Whether two texts denote versions that do not descend in the order of a comparison. -/
def Before (order : Version → Version → Ordering) (a b : Text) : Prop :=
  ∃ v w, Version.read a = .ok v ∧ Version.read b = .ok w ∧ (order v w).isLE = true

theorem sort_eq_arrange : sort = arrange compare := rfl

/-- Sorting in descending order arranges by the swapped precedence. -/
theorem sortDescending_eq_arrange : sortDescending = arrange fun v w => compare w v := rfl

theorem before_compare : Before compare = AtMost := rfl

theorem before_descending : (Before fun v w => compare w v) = fun a b => AtMost b a := by
  funext a b
  apply propext
  constructor
  · rintro ⟨v, w, ha, hb, hle⟩
    exact ⟨w, v, hb, ha, hle⟩
  · rintro ⟨w, v, hb, ha, hle⟩
    exact ⟨v, w, ha, hb, hle⟩

section Arrange

variable {order : Version → Version → Ordering} [TransCmp order]

theorem pairwise_mergeSort_entries (list : List Entry) :
    (list.mergeSort fun a b => (order a.1 b.1).isLE).Pairwise
      fun a b => (order a.1 b.1).isLE = true :=
  List.pairwise_mergeSort (fun _ _ _ => TransCmp.isLE_trans) (fun a b => isLE_total a.1 b.1)
    list

/-- Entries that do not descend are in the same order after sorting. -/
theorem filter_mergeSort {list : List Entry} {keep : Entry → Bool}
    (hkeep : (list.filter keep).Pairwise fun a b => (order a.1 b.1).isLE = true) :
    (list.mergeSort fun a b => (order a.1 b.1).isLE).filter keep = list.filter keep := by
  have hsublist : (list.filter keep).Sublist (list.mergeSort fun a b => (order a.1 b.1).isLE) :=
    List.sublist_mergeSort (fun _ _ _ => TransCmp.isLE_trans) (fun a b => isLE_total a.1 b.1)
      hkeep List.filter_sublist
  have hkept : (list.filter keep).Sublist
      ((list.mergeSort fun a b => (order a.1 b.1).isLE).filter keep) := by
    simpa [List.filter_filter] using hsublist.filter keep
  have hlength := ((List.mergeSort_perm list fun a b => (order a.1 b.1).isLE).filter keep).length_eq
  exact (hkept.eq_of_length hlength.symm).symm

variable (hsame : ∀ {v w : Version}, order v w = .eq ↔ compare v w = .eq)

include hsame

/-- Texts of one precedence are arranged as they stand in the list. -/
theorem filter_arrange (texts : List Text) (v : Version) :
    (arrange order texts).filter (denotes v) = texts.filter (denotes v) := by
  have hties : ((entries texts).filter (denotes v ∘ (·.2))).Pairwise
      fun a b => (order a.1 b.1).isLE = true := by
    apply List.pairwise_of_forall_mem_list
    intro a ha b hb
    obtain ⟨hentryA, hdenotesA⟩ := List.mem_filter.mp ha
    obtain ⟨hentryB, hdenotesB⟩ := List.mem_filter.mp hb
    obtain ⟨w, hreadA, hcompareA⟩ := denotes_iff.mp hdenotesA
    obtain ⟨x, hreadB, hcompareB⟩ := denotes_iff.mp hdenotesB
    obtain rfl : w = a.1 := Except.ok.inj (hreadA.symm.trans (read_of_mem_entries hentryA))
    obtain rfl : x = b.1 := Except.ok.inj (hreadB.symm.trans (read_of_mem_entries hentryB))
    have hcompare : compare a.1 b.1 = .eq :=
      TransCmp.eq_trans (OrientedCmp.eq_symm hcompareA) hcompareB
    rw [hsame.mpr hcompare]
    rfl
  have hversions : ∀ text ∈ texts, (denotes v text && isVersion text) = denotes v text := by
    intro text _
    cases hdenotes : denotes v text with
    | false => rfl
    | true => rw [isVersion_of_denotes hdenotes, Bool.and_self]
  calc (arrange order texts).filter (denotes v)
      = ((entries texts).filter (denotes v ∘ (·.2))).map (·.2) := by
        rw [arrange, List.filter_map, filter_mergeSort hties]
    _ = (texts.filter isVersion).filter (denotes v) := by
        rw [← List.filter_map, map_text_entries]
    _ = texts.filter (denotes v) := by
        rw [List.filter_filter, List.filter_congr hversions]

/-- What `arrange` gives is a permutation, is in order, and keeps texts of one precedence as they
stand. -/
theorem isArrangement_arrange (texts : List Text) :
    IsArrangement (Before order) texts (arrange order texts) where
  perm := by
    rw [← map_text_entries]
    exact (List.mergeSort_perm _ _).map _
  ordered := by
    have hsorted : ((entries texts).mergeSort fun a b => (order a.1 b.1).isLE).Pairwise
        fun a b => (order a.1 b.1).isLE = true := pairwise_mergeSort_entries (entries texts)
    rw [arrange, List.pairwise_map]
    refine hsorted.imp_of_mem ?_
    intro a b ha hb hle
    exact ⟨a.1, b.1, read_of_mem_entries (List.mem_mergeSort.mp ha),
      read_of_mem_entries (List.mem_mergeSort.mp hb), hle⟩
  stable := filter_arrange hsame texts

theorem sameRank_of_before {a b : Text} (hab : Before order a b) (hba : Before order b a) :
    SameRank a b := by
  obtain ⟨v, w, ha, hb, hle⟩ := hab
  obtain ⟨w', v', hb', ha', hge⟩ := hba
  obtain rfl : w = w' := Except.ok.inj (hb.symm.trans hb')
  obtain rfl : v = v' := Except.ok.inj (ha.symm.trans ha')
  exact ⟨v, w, ha, hb, hsame.mp (OrientedCmp.isLE_antisymm hle hge)⟩

/-- Sorting gives the only arrangement of the texts. -/
theorem isArrangement_iff {texts arranged : List Text} :
    IsArrangement (Before order) texts arranged ↔ arranged = arrange order texts := by
  have hsorted := isArrangement_arrange hsame texts
  constructor
  · intro harranged
    exact eq_of_stable (sameRank_of_before hsame) (harranged.perm.trans hsorted.perm.symm)
      harranged.ordered hsorted.ordered
      fun v => (harranged.stable v).trans (hsorted.stable v).symm
  · rintro rfl
    exact hsorted

/-- What is sorted is its own arrangement. -/
theorem arrange_arrange (texts : List Text) :
    arrange order (arrange order texts) = arrange order texts :=
  ((isArrangement_iff hsame).mp (isArrangement_arrange hsame texts).self).symm

/-- Without builds the order is antisymmetric. -/
theorem order_withoutBuild (v w : Version) : order v.withoutBuild w.withoutBuild = order v w := by
  have hself : ∀ v : Version, order v.withoutBuild v = .eq := fun v =>
    hsame.mpr (Version.compare_eq_iff.mpr rfl)
  rw [TransCmp.congr_left (hself v), TransCmp.congr_right (hself w)]

/-- Two sorted lists with the same entries have versions of one precedence at each place. -/
theorem forall₂_of_perm {left right : List Entry} (hperm : left.Perm right)
    (hleft : left.Pairwise fun a b => (order a.1 b.1).isLE = true)
    (hright : right.Pairwise fun a b => (order a.1 b.1).isLE = true) :
    List.Forall₂ (fun a b => compare a.1 b.1 = .eq) left right := by
  have hsorted : ∀ {list : List Entry}, list.Pairwise (fun a b => (order a.1 b.1).isLE = true) →
      (list.map fun entry => entry.1.withoutBuild).Pairwise
        fun v w => (order v w).isLE = true := by
    intro list hlist
    rw [List.pairwise_map]
    exact hlist.imp fun hle => by rwa [order_withoutBuild hsame]
  have hequal : (left.map fun entry => entry.1.withoutBuild) =
      right.map fun entry => entry.1.withoutBuild := by
    refine List.Perm.eq_of_pairwise ?_ (hsorted hleft) (hsorted hright) (hperm.map _)
    intro v w hv hw hle hge
    obtain ⟨a, -, rfl⟩ := List.mem_map.mp hv
    obtain ⟨b, -, rfl⟩ := List.mem_map.mp hw
    rw [order_withoutBuild hsame] at hle hge
    exact Version.withoutBuild_eq_iff.mpr (hsame.mp (OrientedCmp.isLE_antisymm hle hge))
  rw [← List.forall₂_eq_eq_eq, List.forall₂_map_left_iff, List.forall₂_map_right_iff] at hequal
  exact hequal.imp fun _ _ hplace => Version.withoutBuild_eq_iff.mp hplace

/-- The precedence of the text at a place does not depend on the order of the input. -/
theorem forall₂_arrange {texts others : List Text} (hperm : others.Perm texts) :
    List.Forall₂ SameRank (arrange order others) (arrange order texts) := by
  have hentries : ((entries others).mergeSort fun a b => (order a.1 b.1).isLE).Perm
      ((entries texts).mergeSort fun a b => (order a.1 b.1).isLE) :=
    (List.mergeSort_perm _ _).trans ((hperm.filterMap _).trans (List.mergeSort_perm _ _).symm)
  have hplaces := forall₂_of_perm hsame hentries (pairwise_mergeSort_entries _)
    (pairwise_mergeSort_entries _)
  rw [arrange, arrange, List.forall₂_map_left_iff, List.forall₂_map_right_iff]
  rw [List.forall₂_iff_zip] at hplaces ⊢
  refine ⟨hplaces.1, fun {a b} hplace => ?_⟩
  obtain ⟨ha, hb⟩ := List.of_mem_zip hplace
  exact ⟨a.1, b.1, read_of_mem_entries (List.mem_mergeSort.mp ha),
    read_of_mem_entries (List.mem_mergeSort.mp hb), hplaces.2 hplace⟩

end Arrange

/-! ### Ascending and descending order -/

/-- Three elements are sorted by inserting the third among the first two. -/
theorem mergeSort_three {α : Type} (le : α → α → Bool) (a b c : α) :
    [a, b, c].mergeSort le =
      if le a b then
        if le a c then a :: (if le b c then [b, c] else [c, b]) else [c, a, b]
      else
        if le b c then b :: (if le a c then [a, c] else [c, a]) else [c, b, a] := by
  have hmerge : [a, b, c].mergeSort le = List.merge (List.merge [a] [b] le) [c] le := by
    simp [List.mergeSort, List.MergeSort.Internal.splitInTwo]
  rw [hmerge, List.cons_merge_cons]
  split <;> simp [List.cons_merge_cons]

theorem compare_swapped_eq_iff {v w : Version} : compare w v = .eq ↔ compare v w = .eq :=
  ⟨OrientedCmp.eq_symm, OrientedCmp.eq_symm⟩

/-- Sorting gives the only arrangement of the version texts: each of them as often as it was
there, in ascending or descending order, and those of one precedence as they stood.  So the
texts at a place are of one precedence for every order of the input, and what is sorted stays
as it is. -/
theorem sorting_arranges_stably (texts : List Text) :
    (∀ arranged, IsArrangement AtMost texts arranged ↔ arranged = sort texts) ∧
      (∀ arranged, IsArrangement (fun a b => AtMost b a) texts arranged ↔
        arranged = sortDescending texts) ∧
      (∀ others, others.Perm texts →
        List.Forall₂ SameRank (sort others) (sort texts) ∧
          List.Forall₂ SameRank (sortDescending others) (sortDescending texts)) ∧
      sort (sort texts) = sort texts ∧
      sortDescending (sortDescending texts) = sortDescending texts := by
  rw [← before_descending, ← before_compare, sort_eq_arrange, sortDescending_eq_arrange]
  have hsame : ∀ {v w : Version}, compare v w = .eq ↔ compare v w = .eq := Iff.rfl
  refine ⟨fun arranged => isArrangement_iff hsame,
    fun arranged => isArrangement_iff compare_swapped_eq_iff, fun others hperm => ?_,
    arrange_arrange hsame texts, arrange_arrange compare_swapped_eq_iff texts⟩
  exact ⟨forall₂_arrange hsame hperm, forall₂_arrange compare_swapped_eq_iff hperm⟩

/-- Two spellings of one version keep their order in both directions, and a text that is no
version is left out. -/
theorem sorting_arranges_stably_spellings :
    ["1.2.4".toList, "v1.2.3".toList, "1.2".toList, "1.2.3+b".toList].Perm
        ["1.2.3+b".toList, "v1.2.3".toList, "1.2.4".toList, "1.2".toList] ∧
      sort ["1.2.4".toList, "v1.2.3".toList, "1.2".toList, "1.2.3+b".toList] =
        ["v1.2.3".toList, "1.2.3+b".toList, "1.2.4".toList] ∧
      sortDescending ["1.2.3+b".toList, "v1.2.3".toList, "1.2.4".toList, "1.2".toList] =
        ["1.2.4".toList, "1.2.3+b".toList, "v1.2.3".toList] ∧
      List.Forall₂ SameRank ["v1.2.3".toList, "1.2.3+b".toList, "1.2.4".toList]
        ["1.2.3+b".toList, "v1.2.3".toList, "1.2.4".toList] := by
  have hperm : ["1.2.4".toList, "v1.2.3".toList, "1.2".toList, "1.2.3+b".toList].Perm
      ["1.2.3+b".toList, "v1.2.3".toList, "1.2.4".toList, "1.2".toList] := by decide
  have hentries : entries ["1.2.4".toList, "v1.2.3".toList, "1.2".toList, "1.2.3+b".toList] =
      [(⟨1, 2, 4, [], []⟩, "1.2.4".toList), (⟨1, 2, 3, [], []⟩, "v1.2.3".toList),
        (⟨1, 2, 3, [], [['b']]⟩, "1.2.3+b".toList)] := by decide
  have hothers : entries ["1.2.3+b".toList, "v1.2.3".toList, "1.2.4".toList, "1.2".toList] =
      [(⟨1, 2, 3, [], [['b']]⟩, "1.2.3+b".toList), (⟨1, 2, 3, [], []⟩, "v1.2.3".toList),
        (⟨1, 2, 4, [], []⟩, "1.2.4".toList)] := by decide
  have hsort : sort ["1.2.4".toList, "v1.2.3".toList, "1.2".toList, "1.2.3+b".toList] =
      ["v1.2.3".toList, "1.2.3+b".toList, "1.2.4".toList] := by
    rw [sort, hentries, mergeSort_three]
    decide
  have hother : sort ["1.2.3+b".toList, "v1.2.3".toList, "1.2.4".toList, "1.2".toList] =
      ["1.2.3+b".toList, "v1.2.3".toList, "1.2.4".toList] := by
    rw [sort, hothers, mergeSort_three]
    decide
  have hdescending :
      sortDescending ["1.2.3+b".toList, "v1.2.3".toList, "1.2.4".toList, "1.2".toList] =
        ["1.2.4".toList, "1.2.3+b".toList, "v1.2.3".toList] := by
    rw [sortDescending, hothers, mergeSort_three]
    decide
  have hplaces := ((sorting_arranges_stably _).2.2.1 _ hperm).1
  rw [hsort, hother] at hplaces
  exact ⟨hperm, hsort, hdescending, hplaces⟩

end Selection

end SemanticVersions
