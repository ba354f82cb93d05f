import Mathlib.Data.Finset.Powerset
import Mathlib.Data.Finset.Card
import Mathlib.Data.List.Flatten
import Mathlib.Data.List.Nodup
import Mathlib.Data.List.Pairwise

/-!
# Growing a set by subsets of its neighborhood

A *growth* starts at a set `S` with an exclusion set `X`, computes a neighborhood `N` that avoids
`X`, visits `S ∪ s` for every nonempty `s ⊆ N`, smaller `s` first, and then continues from each
`S ∪ s` with `X ∪ N` excluded. This module lists the visited sets (`visits`) and proves, for any
neighborhood function:

* **Shape** (`mem_visits_shape`): a visited set strictly contains the start and adds to it only
  vertices outside the exclusion set.
* **Non-redundancy** (`visits_nodup`): no set is visited twice. The whole neighborhood becomes
  excluded, so the part of a visited set inside `N` fixes the branch that visits it.
* **Order** (`visits_pairwise`): a set is never visited after one of its strict supersets.
* **Reach** (`mem_visits_of_growable`): a set that the neighborhood always meets while it is not
  covered (`Growable`) is visited.

The recursion is bounded by a depth argument; every level excludes at least one new vertex, so a
depth above the number of vertices that are not excluded never cuts the recursion off.
-/

namespace Verax.Lib.SubsetGrowth

variable {α : Type*} [DecidableEq α]

/-- The sets visited by a growth from `S` with `X` excluded, in visiting order. -/
def visits (nbr : Finset α → Finset α → Finset α) (subsets : Finset α → List (Finset α)) :
    ℕ → Finset α → Finset α → List (Finset α)
  | 0, _, _ => []
  | depth + 1, S, X =>
    (subsets (nbr S X)).map (S ∪ ·) ++
      (subsets (nbr S X)).flatMap fun s => visits nbr subsets depth (S ∪ s) (X ∪ nbr S X)

/-- `subsets` lists the nonempty subsets of each set below `U` once each, smaller ones first. -/
structure ListsSubsets (U : Finset α) (subsets : Finset α → List (Finset α)) : Prop where
  mem_iff : ∀ N ⊆ U, ∀ s, s ∈ subsets N ↔ s ⊆ N ∧ s.Nonempty
  nodup : ∀ N ⊆ U, (subsets N).Nodup
  order : ∀ N ⊆ U, (subsets N).Pairwise fun s t => ¬ t ⊂ s

/-- `nbr` yields vertices of `U` outside the exclusion set. -/
structure Avoids (U : Finset α) (nbr : Finset α → Finset α → Finset α) : Prop where
  subset : ∀ S X, nbr S X ⊆ U
  disjoint : ∀ S X, Disjoint (nbr S X) X

/-- `T` can be grown from `S`: as long as `T` is not covered, the neighborhood offers one of its
vertices, whatever else is excluded. -/
def Growable (nbr : Finset α → Finset α → Finset α) (S T : Finset α) : Prop :=
  ∀ G X, S ⊆ G → G ⊂ T → X ∩ T ⊆ G → (T ∩ nbr G X).Nonempty

section
variable {U : Finset α} {nbr : Finset α → Finset α → Finset α}
  {subsets : Finset α → List (Finset α)}

/-- A visited set of a deeper level, with the branch that visits it named. -/
lemma mem_visits_succ {depth : ℕ} {S X T : Finset α} :
    T ∈ visits nbr subsets (depth + 1) S X ↔
      (∃ s ∈ subsets (nbr S X), S ∪ s = T) ∨
        ∃ s ∈ subsets (nbr S X), T ∈ visits nbr subsets depth (S ∪ s) (X ∪ nbr S X) := by
  simp [visits]

/-! ### Shape -/

/-- **Shape of a visited set.** It strictly contains the start, and what it adds lies in `U` and
outside the exclusion set. -/
theorem mem_visits_shape (hs : ListsSubsets U subsets) (hn : Avoids U nbr) :
    ∀ {depth : ℕ} {S X T : Finset α}, S ⊆ X → T ∈ visits nbr subsets depth S X →
      S ⊂ T ∧ Disjoint (T \ S) X ∧ T \ S ⊆ U
  | 0, _, _, _, _, hT => by simp [visits] at hT
  | depth + 1, S, X, T, hSX, hT => by
    have hNX := Finset.disjoint_left.mp (hn.disjoint S X)
    have hNU := hn.subset S X
    -- A nonempty part of the neighborhood is new to `S`, since `S` is excluded.
    have step : ∀ s ∈ subsets (nbr S X), S ⊂ S ∪ s := by
      intro s hmem
      obtain ⟨hsN, v, hv⟩ := (hs.mem_iff _ hNU s).mp hmem
      refine Finset.ssubset_iff_subset_ne.mpr ⟨Finset.subset_union_left, fun heq => ?_⟩
      have hvS : v ∈ S := heq ▸ Finset.mem_union_right S hv
      exact hNX (hsN hv) (hSX hvS)
    rcases mem_visits_succ.mp hT with ⟨s, hmem, rfl⟩ | ⟨s, hmem, hdeep⟩
    · have hsN := ((hs.mem_iff _ hNU s).mp hmem).1
      refine ⟨step s hmem, Finset.disjoint_left.mpr fun v hv => ?_, fun v hv => ?_⟩
      · have : v ∈ s := by grind
        exact hNX (hsN this)
      · have : v ∈ s := by grind
        exact hNU (hsN this)
    · have hsN := ((hs.mem_iff _ hNU s).mp hmem).1
      have hSX' : S ∪ s ⊆ X ∪ nbr S X := Finset.union_subset_union hSX hsN
      obtain ⟨hlt, hdisj, hsub⟩ := mem_visits_shape hs hn hSX' hdeep
      refine ⟨(step s hmem).trans hlt, Finset.disjoint_left.mpr fun v hv hvX => ?_, fun v hv => ?_⟩
      · by_cases hvs : v ∈ S ∪ s
        · have : v ∈ s := by grind
          exact hNX (hsN this) hvX
        · exact Finset.disjoint_left.mp hdisj (by grind) (Finset.mem_union_left _ hvX)
      · by_cases hvs : v ∈ S ∪ s
        · have : v ∈ s := by grind
          exact hNU (hsN this)
        · exact hsub (by grind)

/-- A set visited below the branch of `s` meets the branch's neighborhood exactly in `s`. -/
lemma branch_inter (hs : ListsSubsets U subsets) (hn : Avoids U nbr) {depth : ℕ}
    {S X T s : Finset α} (hSX : S ⊆ X) (hmem : s ∈ subsets (nbr S X))
    (hT : T ∈ visits nbr subsets depth (S ∪ s) (X ∪ nbr S X)) :
    T ∩ nbr S X = s ∧ ¬ T \ S ⊆ nbr S X := by
  have hNX := Finset.disjoint_left.mp (hn.disjoint S X)
  have hsN := ((hs.mem_iff _ (hn.subset S X) s).mp hmem).1
  have hSX' : S ∪ s ⊆ X ∪ nbr S X := Finset.union_subset_union hSX hsN
  obtain ⟨hlt, hdisj, -⟩ := mem_visits_shape hs hn hSX' hT
  have hnew := Finset.disjoint_left.mp hdisj
  constructor
  · ext v
    constructor
    · intro hv
      by_contra hvs
      have hvN : v ∈ nbr S X := Finset.mem_of_mem_inter_right hv
      have hvS : v ∉ S := fun h => hNX hvN (hSX h)
      exact hnew (by grind) (Finset.mem_union_right _ hvN)
    · intro hv
      have : v ∈ T := hlt.subset (Finset.mem_union_right _ hv)
      exact Finset.mem_inter.mpr ⟨this, hsN hv⟩
  · intro hsub
    obtain ⟨v, hvT, hvs⟩ := Finset.exists_of_ssubset hlt
    have : v ∈ nbr S X := hsub (by grind)
    exact hnew (Finset.mem_sdiff.mpr ⟨hvT, hvs⟩) (Finset.mem_union_right _ this)

/-- A set visited at the top of a level meets the neighborhood in the subset that visits it. -/
lemma top_inter (hn : Avoids U nbr) {S X s : Finset α} (hSX : S ⊆ X)
    (hsN : s ⊆ nbr S X) : (S ∪ s) ∩ nbr S X = s ∧ (S ∪ s) \ S ⊆ nbr S X := by
  have hNX := Finset.disjoint_left.mp (hn.disjoint S X)
  constructor
  · ext v
    have : v ∈ S → v ∉ nbr S X := fun h h' => hNX h' (hSX h)
    grind
  · grind

/-! ### Non-redundancy -/

/-- **No set is visited twice.** -/
theorem visits_nodup (hs : ListsSubsets U subsets) (hn : Avoids U nbr) :
    ∀ {depth : ℕ} {S X : Finset α}, S ⊆ X → (visits nbr subsets depth S X).Nodup
  | 0, _, _, _ => List.nodup_nil
  | depth + 1, S, X, hSX => by
    have hNU := hn.subset S X
    have hmemN : ∀ s ∈ subsets (nbr S X), s ⊆ nbr S X :=
      fun s h => ((hs.mem_iff _ hNU s).mp h).1
    refine List.nodup_append'.mpr ⟨?_, ?_, ?_⟩
    · -- The top of the level: the subset is what the set has of the neighborhood.
      refine List.Nodup.map_on (fun s hmem t hmem' heq => ?_) (hs.nodup _ hNU)
      have h₁ := (top_inter hn hSX (hmemN s hmem)).1
      have h₂ := (top_inter hn hSX (hmemN t hmem')).1
      rw [← h₁, ← h₂]
      exact congrArg (· ∩ nbr S X) heq
    · refine List.nodup_flatMap.mpr ⟨fun s hmem => ?_, ?_⟩
      · exact visits_nodup hs hn (Finset.union_subset_union hSX (hmemN s hmem))
      · refine (hs.nodup _ hNU).pairwise_of_forall_ne fun s hmem t hmem' hne => ?_
        refine List.disjoint_left.mpr fun T hT hT' => hne ?_
        rw [← (branch_inter hs hn hSX hmem hT).1, ← (branch_inter hs hn hSX hmem' hT').1]
    · refine List.disjoint_left.mpr fun T hT hT' => ?_
      obtain ⟨s, hmem, rfl⟩ := List.mem_map.mp hT
      obtain ⟨t, hmem', hdeep⟩ := List.mem_flatMap.mp hT'
      exact (branch_inter hs hn hSX hmem' hdeep).2 (top_inter hn hSX (hmemN s hmem)).2

/-! ### Order -/

/-- **A set is never visited after a strict superset of it.** -/
theorem visits_pairwise (hs : ListsSubsets U subsets) (hn : Avoids U nbr) :
    ∀ {depth : ℕ} {S X : Finset α}, S ⊆ X →
      (visits nbr subsets depth S X).Pairwise fun T T' => ¬ T' ⊂ T
  | 0, _, _, _ => List.Pairwise.nil
  | depth + 1, S, X, hSX => by
    have hNU := hn.subset S X
    have hmemN : ∀ s ∈ subsets (nbr S X), s ⊆ nbr S X :=
      fun s h => ((hs.mem_iff _ hNU s).mp h).1
    -- The part inside the neighborhood is monotone, which turns an inclusion of visited sets
    -- into an inclusion of the subsets that lead to them.
    have mono : ∀ {T T' : Finset α}, T' ⊂ T → T' ∩ nbr S X ⊆ T ∩ nbr S X :=
      fun h => Finset.inter_subset_inter_right h.subset
    refine List.pairwise_append.mpr ⟨?_, ?_, ?_⟩
    · refine List.pairwise_map.mpr ((hs.order _ hNU).imp_of_mem fun hmem hmem' hst hlt => ?_)
      have h₁ := (top_inter hn hSX (hmemN _ hmem)).1
      have h₂ := (top_inter hn hSX (hmemN _ hmem')).1
      have hsub := mono hlt
      rw [h₁, h₂] at hsub
      refine hst (Finset.ssubset_iff_subset_ne.mpr ⟨hsub, fun heq => ?_⟩)
      rw [heq] at hlt
      exact hlt.ne rfl
    · refine List.pairwise_flatMap.mpr ⟨fun s hmem => ?_, ?_⟩
      · exact visits_pairwise hs hn (Finset.union_subset_union hSX (hmemN s hmem))
      · have hne := hs.nodup _ hNU
        refine ((hs.order _ hNU).and hne).imp_of_mem fun hmem hmem' hst T hT T' hT' hlt => ?_
        have hsub := mono hlt
        rw [(branch_inter hs hn hSX hmem hT).1, (branch_inter hs hn hSX hmem' hT').1] at hsub
        exact hst.1 (Finset.ssubset_iff_subset_ne.mpr ⟨hsub, hst.2.symm⟩)
    · intro T hT T' hT' hlt
      obtain ⟨s, hmem, rfl⟩ := List.mem_map.mp hT
      obtain ⟨t, hmem', hdeep⟩ := List.mem_flatMap.mp hT'
      have htop := (top_inter hn hSX (hmemN s hmem)).2
      refine (branch_inter hs hn hSX hmem' hdeep).2 fun v hv => htop ?_
      exact Finset.sdiff_subset_sdiff hlt.subset (Finset.Subset.refl S) hv

/-! ### Reach -/

/-- **A growable set is visited**, given enough depth for the vertices not yet excluded. -/
theorem mem_visits_of_growable (hs : ListsSubsets U subsets) (hn : Avoids U nbr) :
    ∀ {depth : ℕ} {S X T : Finset α}, (U \ X).card < depth → S ⊂ T → X ∩ T ⊆ S →
      Growable nbr S T → T ∈ visits nbr subsets depth S X
  | 0, _, _, _, hdepth, _, _, _ => absurd hdepth (Nat.not_lt_zero _)
  | depth + 1, S, X, T, hdepth, hST, hX, hgrow => by
    have hNU := hn.subset S X
    have hne := hgrow S X (Finset.Subset.refl S) hST hX
    have hmem : T ∩ nbr S X ∈ subsets (nbr S X) :=
      (hs.mem_iff _ hNU _).mpr ⟨Finset.inter_subset_right, hne⟩
    have hsub : S ∪ T ∩ nbr S X ⊆ T :=
      Finset.union_subset hST.subset Finset.inter_subset_left
    by_cases heq : S ∪ T ∩ nbr S X = T
    · exact mem_visits_succ.mpr (Or.inl ⟨_, hmem, heq⟩)
    · refine mem_visits_succ.mpr (Or.inr ⟨_, hmem, ?_⟩)
      refine mem_visits_of_growable hs hn ?_ (Finset.ssubset_iff_subset_ne.mpr ⟨hsub, heq⟩) ?_ ?_
      · -- The neighborhood is nonempty and not yet excluded, so fewer vertices remain.
        obtain ⟨v, hv⟩ := hne
        have hvN := Finset.mem_of_mem_inter_right hv
        have hvX := Finset.disjoint_left.mp (hn.disjoint S X) hvN
        have hlt : U \ (X ∪ nbr S X) ⊂ U \ X := by
          refine Finset.ssubset_iff_of_subset ?_ |>.mpr ⟨v, ?_, ?_⟩
          · exact Finset.sdiff_subset_sdiff (Finset.Subset.refl U) Finset.subset_union_left
          · exact Finset.mem_sdiff.mpr ⟨hNU hvN, hvX⟩
          · simp [hvN]
        have := Finset.card_lt_card hlt
        omega
      · intro v hv
        have := @hX v
        grind
      · intro G X' hG hlt hX'
        exact hgrow G X' (Finset.subset_union_left.trans hG) hlt hX'

end

end Verax.Lib.SubsetGrowth
