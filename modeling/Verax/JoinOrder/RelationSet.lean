import Mathlib
import Verax.Lib.SubsetGrowth

/-!
# Sets of relation ids

`RelationSet.h` packs a set of relation ids below 64 into one machine word. Here a relation set is
a finite set of natural numbers, and `bits` is the word it is packed into; the operations keep the
source's names. `subsetsBySize` is the order in which `DPhyp` walks the subsets of a neighborhood,
and `listsSubsets_subsetsBySize` says what the enumeration needs of it.
-/

namespace Verax.JoinOrder

open Verax.Lib.SubsetGrowth

/-- A set of relation ids. Source: `RelationSet.h` `RelationSet`. -/
abbrev RelationSet := Finset ℕ

namespace RelationSet

/-- Upper bound on representable ids. Source: `RelationSet.h` `kMaxRelations`. -/
def kMaxRelations : ℕ := 64

/-- The ids up to and including `id`. Source: `RelationSet.h` `prefixThrough`. -/
def prefixThrough (id : ℕ) : RelationSet := Finset.Iic id

/-- The smallest id of a nonempty set. Source: `RelationSet.h` `min`. -/
def min (S : RelationSet) : ℕ := (Finset.min S).untopD 0

/-- The word the set is packed into: bit `i` is set iff `i` is a member.
Source: `RelationSet.h` `bits`. -/
def bits (S : RelationSet) : ℕ := ∑ i ∈ S, 2 ^ i

/-- The ids in ascending order, the order of `forEach`. Source: `RelationSet.h` `forEach`. -/
def toAscending (S : RelationSet) : List ℕ := (List.range kMaxRelations).filter (· ∈ S)

/-- All ids a relation set can hold. -/
def allIds : RelationSet := Finset.range kMaxRelations

/-- The order in which `subsetsBySize` sorts: by number of ids, then by the packed word. -/
def BySize (S T : RelationSet) : Prop := S.card < T.card ∨ S.card = T.card ∧ bits S ≤ bits T

instance : DecidableRel BySize := fun S T =>
  inferInstanceAs (Decidable (S.card < T.card ∨ S.card = T.card ∧ bits S ≤ bits T))

instance : Std.Total BySize where
  total S T := by unfold BySize; omega

instance : IsTrans RelationSet BySize where
  trans S T R := by unfold BySize; omega

/-- The nonempty subsets of a neighborhood, smaller ones first, ties broken by the packed word.
The source lists them by decrementing the word under the mask and then sorts; the sort key is
injective, so the listing it starts from does not matter.
Source: `DPhyp.cpp` `subsetsBySize`. -/
def subsetsBySize (neighbors : RelationSet) : List RelationSet :=
  (((toAscending neighbors).sublists.map List.toFinset).filter (·.Nonempty)).insertionSort BySize

/-! ### Lemmas -/

@[simp] lemma mem_prefixThrough {id v : ℕ} : v ∈ prefixThrough id ↔ v ≤ id := Finset.mem_Iic

@[simp] lemma mem_allIds {v : ℕ} : v ∈ allIds ↔ v < kMaxRelations := Finset.mem_range

/-- The minimum of a nonempty set is its least element. -/
lemma isLeast_min {S : RelationSet} (h : S.Nonempty) : IsLeast (S : Set ℕ) (min S) := by
  have heq : min S = S.min' h := by
    rw [min, ← Finset.coe_min' h]
    rfl
  rw [heq]
  exact Finset.isLeast_min' S h

lemma min_mem {S : RelationSet} (h : S.Nonempty) : min S ∈ S := (isLeast_min h).1

/-- The ascending list holds every id of a set of representable ids. -/
lemma mem_toAscending {S : RelationSet} (h : S ⊆ allIds) {v : ℕ} :
    v ∈ toAscending S ↔ v ∈ S := by
  have : v ∈ S → v < kMaxRelations := fun hv => mem_allIds.mp (h hv)
  simpa [toAscending] using this

lemma toAscending_pairwise (S : RelationSet) : (toAscending S).Pairwise (· < ·) :=
  List.pairwise_lt_range.filter _

lemma toAscending_nodup (S : RelationSet) : (toAscending S).Nodup :=
  (toAscending_pairwise S).imp fun h => h.ne

/-- A set of representable ids is the set of its ascending list. -/
lemma toFinset_toAscending {S : RelationSet} (h : S ⊆ allIds) : (toAscending S).toFinset = S := by
  ext v
  rw [List.mem_toFinset, mem_toAscending h]

/-- `subsetsBySize` lists the nonempty subsets once each, a subset before its strict supersets. -/
theorem listsSubsets_subsetsBySize : ListsSubsets allIds subsetsBySize where
  mem_iff N hN s := by
    simp only [subsetsBySize, List.mem_insertionSort, List.mem_filter, List.mem_map,
      List.mem_sublists, decide_eq_true_eq]
    refine and_congr_left fun hne => ⟨?_, fun hs => ?_⟩
    · rintro ⟨l, hl, rfl⟩ v hv
      exact (mem_toAscending hN).mp (hl.subset (List.mem_toFinset.mp hv))
    · refine ⟨(toAscending N).filter (· ∈ s), List.filter_sublist, ?_⟩
      ext v
      simp only [List.mem_toFinset, List.mem_filter, mem_toAscending hN, decide_eq_true_eq]
      exact ⟨fun h => h.2, fun h => ⟨hs h, h⟩⟩
  nodup N hN := by
    refine (List.perm_insertionSort _ _).nodup_iff.mpr (List.Nodup.filter _ ?_)
    refine List.Nodup.map_on (fun l hl l' hl' heq => ?_)
      (List.nodup_sublists.mpr (toAscending_nodup N))
    -- Two sublists of an ascending list with the same members are the same list.
    have hsub : l.Sublist (toAscending N) := List.mem_sublists.mp hl
    have hsub' : l'.Sublist (toAscending N) := List.mem_sublists.mp hl'
    have hasymm : ∀ v w, v ∈ l → w ∈ l' → v < w → w < v → v = w :=
      fun _ _ _ _ h h' => absurd h h'.asymm
    refine List.Perm.eq_of_pairwise hasymm ((toAscending_pairwise N).sublist hsub)
      ((toAscending_pairwise N).sublist hsub') ?_
    refine (List.perm_ext_iff_of_nodup ((toAscending_nodup N).sublist hsub)
      ((toAscending_nodup N).sublist hsub')).mpr fun v => ?_
    rw [← List.mem_toFinset, ← List.mem_toFinset, heq]
  order N hN := by
    refine (List.pairwise_insertionSort BySize _).imp fun {s t} hst hlt => ?_
    have := Finset.card_lt_card hlt
    unfold BySize at hst
    omega

end RelationSet

end Verax.JoinOrder
