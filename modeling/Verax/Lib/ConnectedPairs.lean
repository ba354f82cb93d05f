import Mathlib.Order.Bounds.Basic
import Mathlib.Order.Interval.Finset.Defs
import Verax.Lib.SubsetGrowth

/-!
# Enumerating the connected pairs of a hypergraph

A hypergraph is a set of edges, each a pair of nonempty vertex sets. A vertex set is *assembled*
when it is a single vertex or the disjoint union of two assembled sets that some admissible edge
connects. A dynamic program over assembled sets meets its pairs in the order of a fixed *schedule*:
start vertices downwards, from each the sets grown from it, and for each of those the sets grown
among the higher vertices next to it. This module proves, for every hypergraph and every admissible
relation on pairs:

* **Static part.** A scheduled pair is disjoint and its first side holds the lowest vertex
  (`mem_schedule_shape`); the schedule lists no unordered pair twice and never lists a pair that
  builds a side of an earlier one (`schedule_pairwise`); every connected pair of assembled sets is
  scheduled one way round (`mem_schedule_of_assembled`).
* **Dynamic part.** In a run over the schedule (`Runs`), whatever is ever recorded about a side of a
  pair has been recorded before the pair is met (`recorded_before`), and a run that skips no
  admissible pair of recorded sides records exactly the assembled sets (`runs_iff`).

The neighborhood of a set stands for a whole far side by its lowest vertex; the induction that
carries the static part (`covered_of_stuck`) follows the construction of an assembled set.
-/

set_option linter.unusedSectionVars false

namespace Verax.Lib.ConnectedPairs

open Verax.Lib.SubsetGrowth

variable {α : Type*} [LinearOrder α] [LocallyFiniteOrderBot α]

/-- A hyperedge: the two vertex sets that must lie on opposite sides. -/
abbrev Hyperedge (α : Type*) := Finset α × Finset α

/-- From a set `S` holding one side, the edge faces the other side, which lies outside `S`. -/
def Faces (e : Hyperedge α) (S far : Finset α) : Prop :=
  (e.1 ⊆ S ∧ far = e.2 ∨ e.2 ⊆ S ∧ far = e.1) ∧ Disjoint far S

/-- Some edge has one side in `A` and the other in `B`. -/
def Connects (edges : Set (Hyperedge α)) (A B : Finset α) : Prop :=
  ∃ e ∈ edges, e.1 ⊆ A ∧ e.2 ⊆ B ∨ e.1 ⊆ B ∧ e.2 ⊆ A

/-- The ingredients of an enumeration: neighborhoods, subset lists, descending vertex lists, lowest
vertices, and a recursion depth. -/
structure Enumeration (α : Type*) where
  nbr : Finset α → Finset α → Finset α
  subsets : Finset α → List (Finset α)
  descending : Finset α → List α
  lowest : Finset α → α
  depth : ℕ

/-- The ingredients do what their names say, for a hypergraph `edges` on the vertices `U`. -/
structure Enumeration.Lawful (E : Enumeration α) (U : Finset α) (edges : Set (Hyperedge α)) :
    Prop where
  edge_nonempty : ∀ e ∈ edges, e.1.Nonempty ∧ e.2.Nonempty
  edge_subset : ∀ e ∈ edges, e.1 ⊆ U ∧ e.2 ⊆ U
  mem_nbr : ∀ S X v, v ∈ E.nbr S X ↔
    ∃ e ∈ edges, ∃ far, Faces e S far ∧ Disjoint far X ∧ IsLeast (far : Set α) v
  subsets : ListsSubsets U E.subsets
  mem_descending : ∀ N ⊆ U, ∀ v, v ∈ E.descending N ↔ v ∈ N
  descending : ∀ N ⊆ U, (E.descending N).Pairwise fun v w => w < v
  lowest : ∀ S : Finset α, S.Nonempty → IsLeast (S : Set α) (E.lowest S)
  depth : U.card < E.depth

/-- A set that some run of admissible joins builds from single vertices of `W`. -/
inductive Assembled (W : Finset α) (ok : Finset α → Finset α → Prop) : Finset α → Prop
  | single {v : α} : v ∈ W → Assembled W ok {v}
  | join {A B : Finset α} : Assembled W ok A → Assembled W ok B → Disjoint A B → ok A B →
      Assembled W ok (A ∪ B)

namespace Enumeration

variable (E : Enumeration α)

/-- The sets grown from the start vertex `s`: only vertices above `s` are added. -/
def growths (s : α) : List (Finset α) :=
  {s} :: visits E.nbr E.subsets E.depth {s} (Finset.Iic s)

/-- What a complement started at `v` must avoid: everything up to the lowest vertex of `A`, `A`
itself, and the neighbors up to `v`, each of which starts complements of its own. -/
def complementForbidden (A : Finset α) (v : α) : Finset α :=
  Finset.Iic (E.lowest A) ∪ A ∪ (Finset.Iic v ∩ E.nbr A (Finset.Iic (E.lowest A)))

/-- The sets paired with `A`, grown from each neighbor of `A` above its lowest vertex. -/
def complements (A : Finset α) : List (Finset α) :=
  (E.descending (E.nbr A (Finset.Iic (E.lowest A)))).flatMap fun v =>
    {v} :: visits E.nbr E.subsets E.depth {v} (E.complementForbidden A v)

/-- The pairs, in the order in which they are met. -/
def schedule (W : Finset α) : List (Finset α × Finset α) :=
  (E.descending W).flatMap fun s =>
    (E.growths s).flatMap fun A => (E.complements A).map fun B => (A, B)

end Enumeration

section static

variable {E : Enumeration α} {U W : Finset α} {edges : Set (Hyperedge α)}
  {ok : Finset α → Finset α → Prop}

/-! ### Neighborhoods and assembled sets -/

/-- Neighborhoods stay within the vertices and avoid the exclusion set. -/
lemma avoids (hE : E.Lawful U edges) : Avoids U E.nbr where
  subset S X v hv := by
    obtain ⟨e, he, far, ⟨hside, -⟩, -, hleast⟩ := (hE.mem_nbr S X v).mp hv
    rcases hside with ⟨-, rfl⟩ | ⟨-, rfl⟩
    · exact (hE.edge_subset e he).2 hleast.1
    · exact (hE.edge_subset e he).1 hleast.1
  disjoint S X := by
    refine Finset.disjoint_left.mpr fun v hv => ?_
    obtain ⟨e, he, far, -, hdisj, hleast⟩ := (hE.mem_nbr S X v).mp hv
    exact Finset.disjoint_left.mp hdisj hleast.1

/-- An assembled set is nonempty. -/
lemma Assembled.nonempty {T : Finset α} (hT : Assembled W ok T) : T.Nonempty := by
  induction hT with
  | single _ => exact Finset.singleton_nonempty _
  | join _ _ _ _ ihA _ => exact ihA.mono Finset.subset_union_left

/-- An assembled set is built from the given vertices. -/
lemma Assembled.subset {T : Finset α} (hT : Assembled W ok T) : T ⊆ W := by
  induction hT with
  | single hv => exact Finset.singleton_subset_iff.mpr hv
  | join _ _ _ _ ihA ihB => exact Finset.union_subset ihA ihB

/-- The far side of a connecting edge contributes its lowest vertex to the neighborhood. -/
lemma nbr_of_far (hE : E.Lawful U edges) {e : Hyperedge α} (he : e ∈ edges)
    {G X far : Finset α} (hside : e.1 ⊆ G ∧ far = e.2 ∨ e.2 ⊆ G ∧ far = e.1)
    (hG : Disjoint far G) (hX : Disjoint far X) : ∃ v ∈ far, v ∈ E.nbr G X := by
  have hne : far.Nonempty := by
    rcases hside with ⟨-, rfl⟩ | ⟨-, rfl⟩
    · exact (hE.edge_nonempty e he).2
    · exact (hE.edge_nonempty e he).1
  have hleast := hE.lowest far hne
  exact ⟨_, hleast.1, (hE.mem_nbr G X _).mpr ⟨e, he, far, ⟨hside, hG⟩, hX, hleast⟩⟩

/-- A connecting edge between `A`, covered by `G`, and `B` forces `G` to meet `B` once the
neighborhood of `G` has nothing left of `B`. -/
lemma meets_of_stuck (hE : E.Lawful U edges) {A B G X : Finset α}
    (hconn : Connects edges A B) (hAG : A ⊆ G) (hX : X ∩ B ⊆ G)
    (hstuck : B ∩ E.nbr G X = ∅) : (G ∩ B).Nonempty := by
  obtain ⟨e, he, hsides⟩ := hconn
  by_contra hnone
  rw [Finset.not_nonempty_iff_eq_empty] at hnone
  have hfar : ∃ far, (e.1 ⊆ G ∧ far = e.2 ∨ e.2 ⊆ G ∧ far = e.1) ∧ far ⊆ B := by
    rcases hsides with ⟨hl, hr⟩ | ⟨hl, hr⟩
    · exact ⟨e.2, Or.inl ⟨hl.trans hAG, rfl⟩, hr⟩
    · exact ⟨e.1, Or.inr ⟨hr.trans hAG, rfl⟩, hl⟩
  obtain ⟨far, hside, hfarB⟩ := hfar
  have hfarG : Disjoint far G := by
    refine Finset.disjoint_left.mpr fun v hv hvG => ?_
    exact Finset.notMem_empty v (hnone ▸ Finset.mem_inter.mpr ⟨hvG, hfarB hv⟩)
  have hfarX : Disjoint far X := by
    refine Finset.disjoint_left.mpr fun v hv hvX => ?_
    exact Finset.disjoint_left.mp hfarG hv (hX (Finset.mem_inter.mpr ⟨hvX, hfarB hv⟩))
  obtain ⟨v, hv, hvN⟩ := nbr_of_far hE he hside hfarG hfarX
  exact Finset.notMem_empty v (hstuck ▸ Finset.mem_inter.mpr ⟨hfarB hv, hvN⟩)

/-- **A growth that is stuck has covered the set.** If `G` meets an assembled set, excludes none
of it beyond `G`, and its neighborhood offers none of it, then `G` covers it. -/
lemma covered_of_stuck (hE : E.Lawful U edges)
    (hok : ∀ A B, ok A B → Connects edges A B) {T : Finset α} (hT : Assembled W ok T) :
    ∀ {G X : Finset α}, (G ∩ T).Nonempty → X ∩ T ⊆ G → T ∩ E.nbr G X = ∅ → T ⊆ G := by
  induction hT with
  | @single v hv =>
    intro G X hmeet _ _
    obtain ⟨w, hw⟩ := hmeet
    obtain rfl : w = v := by simpa using Finset.mem_of_mem_inter_right hw
    exact Finset.singleton_subset_iff.mpr (Finset.mem_of_mem_inter_left hw)
  | @join A B hA hB hdisj hAB ihA ihB =>
    intro G X hmeet hX hstuck
    have hXA : X ∩ A ⊆ G := (Finset.inter_subset_inter_left Finset.subset_union_left).trans hX
    have hXB : X ∩ B ⊆ G := (Finset.inter_subset_inter_left Finset.subset_union_right).trans hX
    have hsA : A ∩ E.nbr G X = ∅ := by
      refine Finset.subset_empty.mp (hstuck ▸ Finset.inter_subset_inter_right ?_)
      exact Finset.subset_union_left
    have hsB : B ∩ E.nbr G X = ∅ := by
      refine Finset.subset_empty.mp (hstuck ▸ Finset.inter_subset_inter_right ?_)
      exact Finset.subset_union_right
    have hconn := hok A B hAB
    have hconn' : Connects edges B A := by
      obtain ⟨e, he, h⟩ := hconn
      exact ⟨e, he, h.symm⟩
    rw [Finset.inter_union_distrib_left, Finset.union_nonempty] at hmeet
    -- Whichever side `G` meets first is covered, and the connecting edge then reaches the other.
    rcases hmeet with hmA | hmB
    · have hAG := ihA hmA hXA hsA
      exact Finset.union_subset hAG (ihB (meets_of_stuck hE hconn hAG hXB hsB) hXB hsB)
    · have hBG := ihB hmB hXB hsB
      exact Finset.union_subset (ihA (meets_of_stuck hE hconn' hBG hXA hsA) hXA hsA) hBG

/-- An assembled set can be grown from any nonempty part of it. -/
lemma growable_of_assembled (hE : E.Lawful U edges)
    (hok : ∀ A B, ok A B → Connects edges A B) {S T : Finset α} (hT : Assembled W ok T)
    (hne : S.Nonempty) : Growable E.nbr S T := by
  intro G X hSG hGT hX
  by_contra hstuck
  rw [Finset.not_nonempty_iff_eq_empty] at hstuck
  have hmeet : (G ∩ T).Nonempty := by
    rw [Finset.inter_eq_left.mpr hGT.subset]
    exact hne.mono hSG
  exact hGT.not_subset (covered_of_stuck hE hok hT hmeet hX hstuck)

/-! ### The shape of the schedule -/

/-- A set grown from `s` has `s` as its lowest vertex. -/
lemma growths_isLeast (hE : E.Lawful U edges) {s : α} {A : Finset α} (hA : A ∈ E.growths s) :
    IsLeast (A : Set α) s := by
  rcases List.mem_cons.mp hA with rfl | hA
  · simp [IsLeast, lowerBounds]
  · have hs : ({s} : Finset α) ⊆ Finset.Iic s := by simp
    obtain ⟨hlt, hdisj, -⟩ := mem_visits_shape hE.subsets (avoids hE) hs hA
    refine ⟨hlt.subset (Finset.mem_singleton_self s), fun v hv => ?_⟩
    by_contra hvs
    rw [not_le] at hvs
    have hvA : v ∈ A \ {s} := by simp [Finset.mem_coe.mp hv, hvs.ne]
    exact Finset.disjoint_left.mp hdisj hvA (Finset.mem_Iic.mpr hvs.le)

/-- A neighbor that starts complements lies outside `A` and above its lowest vertex. -/
lemma start_spec (hE : E.Lawful U edges) {A : Finset α} {v : α}
    (hv : v ∈ E.nbr A (Finset.Iic (E.lowest A))) : v ∉ A ∧ E.lowest A < v := by
  have hlow := Finset.disjoint_left.mp ((avoids hE).disjoint A _) hv
  obtain ⟨e, -, far, ⟨-, hdisj⟩, -, hleast⟩ := (hE.mem_nbr _ _ _).mp hv
  exact ⟨Finset.disjoint_left.mp hdisj hleast.1, by simpa using hlow⟩

/-- A complement started at `v` meets its forbidden vertices only in `v`. -/
lemma complement_shape (hE : E.Lawful U edges) {A B : Finset α} {v : α}
    (hv : v ∈ E.nbr A (Finset.Iic (E.lowest A)))
    (hB : B ∈ {v} :: visits E.nbr E.subsets E.depth {v} (E.complementForbidden A v)) :
    v ∈ B ∧ Disjoint (B \ {v}) (E.complementForbidden A v) := by
  rcases List.mem_cons.mp hB with rfl | hB
  · simp
  · have hsub : ({v} : Finset α) ⊆ E.complementForbidden A v := by
      simp [Enumeration.complementForbidden, hv]
    obtain ⟨hlt, hdisj, -⟩ := mem_visits_shape hE.subsets (avoids hE) hsub hB
    exact ⟨hlt.subset (Finset.mem_singleton_self v), hdisj⟩

/-- A complement of `A` avoids `A` and lies above its lowest vertex. -/
lemma complements_shape (hE : E.Lawful U edges) {A B : Finset α} (hB : B ∈ E.complements A) :
    Disjoint A B ∧ B.Nonempty ∧ ∀ w ∈ B, E.lowest A < w := by
  obtain ⟨v, hv, hB⟩ := List.mem_flatMap.mp hB
  rw [hE.mem_descending _ ((avoids hE).subset _ _)] at hv
  obtain ⟨hvA, hlow⟩ := start_spec hE hv
  obtain ⟨hvB, hdisj⟩ := complement_shape hE hv hB
  have hout : ∀ w ∈ B, w ∉ A ∧ E.lowest A < w := by
    intro w hw
    by_cases hwv : w = v
    · exact hwv ▸ ⟨hvA, hlow⟩
    · have := Finset.disjoint_left.mp hdisj (by simpa using ⟨hw, hwv⟩ : w ∈ B \ {v})
      simp only [Enumeration.complementForbidden, Finset.mem_union, Finset.mem_Iic,
        Finset.mem_inter, not_or, not_le] at this
      exact ⟨this.1.2, this.1.1⟩
  exact ⟨Finset.disjoint_right.mpr fun w hw => (hout w hw).1, ⟨v, hvB⟩, fun w hw => (hout w hw).2⟩

/-- **Shape of a scheduled pair.** The sides are nonempty and disjoint, and the first side holds the
lowest vertex, which is one of the start vertices. -/
theorem mem_schedule_shape (hE : E.Lawful U edges) (hW : W ⊆ U) {p : Finset α × Finset α}
    (hp : p ∈ E.schedule W) :
    Disjoint p.1 p.2 ∧ p.2.Nonempty ∧ ∃ s ∈ W, IsLeast (p.1 : Set α) s ∧ ∀ w ∈ p.2, s < w := by
  obtain ⟨s, hs, hp⟩ := List.mem_flatMap.mp hp
  obtain ⟨A, hA, hp⟩ := List.mem_flatMap.mp hp
  obtain ⟨B, hB, rfl⟩ := List.mem_map.mp hp
  have hleast := growths_isLeast hE hA
  obtain ⟨hdisj, hne, habove⟩ := complements_shape hE hB
  have hlow : E.lowest A = s := (hE.lowest A ⟨s, hleast.1⟩).unique hleast
  exact ⟨hdisj, hne, s, (hE.mem_descending W hW s).mp hs, hleast, hlow ▸ habove⟩

/-! ### No pair twice, no side built later -/

/-- The complements of a set are listed once each. -/
lemma complements_nodup (hE : E.Lawful U edges) (A : Finset α) : (E.complements A).Nodup := by
  have hav := avoids hE
  have hNU := hav.subset A (Finset.Iic (E.lowest A))
  refine List.nodup_flatMap.mpr ⟨fun v hv => ?_, ?_⟩
  · rw [hE.mem_descending _ hNU] at hv
    have hsub : ({v} : Finset α) ⊆ E.complementForbidden A v := by
      simp [Enumeration.complementForbidden, hv]
    refine List.nodup_cons.mpr ⟨fun hmem => ?_, visits_nodup hE.subsets hav hsub⟩
    exact (mem_visits_shape hE.subsets hav hsub hmem).1.ne rfl
  · refine (hE.descending _ hNU).imp_of_mem fun {v w} hv hw hlt => ?_
    rw [hE.mem_descending _ hNU] at hv hw
    -- The higher start forbids the lower one, so the sets it starts do not hold it.
    refine List.disjoint_left.mpr fun B hB hB' => ?_
    have hwB := (complement_shape hE hw hB').1
    have hdisj := (complement_shape hE hv hB).2
    refine Finset.disjoint_left.mp hdisj (by simpa using ⟨hwB, hlt.ne⟩ : w ∈ B \ {v}) ?_
    simp [Enumeration.complementForbidden, hw, hlt.le]

/-- The sets grown from one start vertex are listed once each, none after a superset of it. -/
lemma growths_pairwise (hE : E.Lawful U edges) (s : α) :
    (E.growths s).Pairwise fun A A' => A ≠ A' ∧ ¬ A' ⊂ A := by
  have hs : ({s} : Finset α) ⊆ Finset.Iic s := by simp
  have hshape : ∀ T ∈ visits E.nbr E.subsets E.depth {s} (Finset.Iic s), {s} ⊂ T :=
    fun T hT => (mem_visits_shape hE.subsets (avoids hE) hs hT).1
  refine List.pairwise_cons.mpr ⟨fun T hT => ⟨(hshape T hT).ne, (hshape T hT).asymm⟩, ?_⟩
  exact List.Pairwise.and (visits_nodup hE.subsets (avoids hE) hs)
    (visits_pairwise hE.subsets (avoids hE) hs)

/-- A later pair `q` neither repeats an earlier pair `p`, in either orientation, nor builds one of
its sides. -/
def Later (p q : Finset α × Finset α) : Prop :=
  q ≠ p ∧ q ≠ p.swap ∧ q.1 ∪ q.2 ≠ p.1 ∧ q.1 ∪ q.2 ≠ p.2

/-- Pairs whose first sides have the same lowest vertex, the later first side not being a strict
subset of the earlier one. -/
lemma later_of_isLeast {A A' B B' : Finset α} {s : α}
    (hA' : IsLeast (A' : Set α) s) (hB : ∀ w ∈ B, s < w) (hdisj' : Disjoint A' B')
    (hne' : B'.Nonempty) (hord : ¬ A' ⊂ A) (hne : A = A' → B' ≠ B) : Later (A, B) (A', B') := by
  have hsB : s ∉ B := fun h => lt_irrefl s (hB s h)
  have hunion : s ∈ A' ∪ B' := Finset.mem_union_left _ hA'.1
  refine ⟨fun h => ?_, fun h => ?_, fun (h : A' ∪ B' = A) => ?_, fun (h : A' ∪ B' = B) => ?_⟩
  · simp only [Prod.mk.injEq] at h
    exact hne h.1.symm h.2
  · simp only [Prod.swap_prod_mk, Prod.mk.injEq] at h
    exact hsB (h.1 ▸ hA'.1)
  · obtain ⟨w, hw⟩ := hne'
    refine hord (Finset.ssubset_iff_subset_ne.mpr ⟨h ▸ Finset.subset_union_left, fun heq => ?_⟩)
    have hwA : w ∈ A := h ▸ Finset.mem_union_right A' hw
    exact Finset.disjoint_left.mp hdisj' (heq ▸ hwA) hw
  · exact hsB (h ▸ hunion)

/-- **No unordered pair is met twice, and no pair builds a side of an earlier one.** -/
theorem schedule_pairwise (hE : E.Lawful U edges) (hW : W ⊆ U) :
    (E.schedule W).Pairwise Later := by
  have hspec : ∀ {s : α} {A B : Finset α}, A ∈ E.growths s → B ∈ E.complements A →
      IsLeast (A : Set α) s ∧ Disjoint A B ∧ B.Nonempty ∧ ∀ w ∈ B, s < w := by
    intro s A B hA hB
    have hleast := growths_isLeast hE hA
    obtain ⟨hdisj, hne, habove⟩ := complements_shape hE hB
    have hlow : E.lowest A = s := (hE.lowest A ⟨s, hleast.1⟩).unique hleast
    exact ⟨hleast, hdisj, hne, hlow ▸ habove⟩
  refine List.pairwise_flatMap.mpr ⟨fun s _ => List.pairwise_flatMap.mpr ⟨fun A hA => ?_, ?_⟩, ?_⟩
  · refine List.pairwise_map.mpr ((complements_nodup hE A).imp_of_mem fun hB hB' hne => ?_)
    obtain ⟨hleast, -, -, habove⟩ := hspec hA hB
    obtain ⟨-, hdisj', hne', -⟩ := hspec hA hB'
    exact later_of_isLeast hleast habove hdisj' hne' (fun h => h.ne rfl)
      fun _ => hne.symm
  · refine (growths_pairwise hE s).imp_of_mem fun hA hA' hord p hp q hq => ?_
    obtain ⟨B, hB, rfl⟩ := List.mem_map.mp hp
    obtain ⟨B', hB', rfl⟩ := List.mem_map.mp hq
    obtain ⟨hleast, -, -, habove⟩ := hspec hA hB
    obtain ⟨hleast', hdisj', hne', -⟩ := hspec hA' hB'
    exact later_of_isLeast hleast' habove hdisj' hne' hord.2 fun h => absurd h hord.1
  · refine (hE.descending W hW).imp_of_mem fun {s t} _ _ hlt p hp q hq => ?_
    obtain ⟨A, hA, hp⟩ := List.mem_flatMap.mp hp
    obtain ⟨B, hB, rfl⟩ := List.mem_map.mp hp
    obtain ⟨A', hA', hq⟩ := List.mem_flatMap.mp hq
    obtain ⟨B', hB', rfl⟩ := List.mem_map.mp hq
    obtain ⟨hleast, -, -, habove⟩ := hspec hA hB
    obtain ⟨hleast', -, -, -⟩ := hspec hA' hB'
    -- The later start vertex is lower than everything in the earlier pair.
    have hA : t ∉ A := fun h => absurd (hleast.2 h) (not_le.mpr hlt)
    have hB : t ∉ B := fun h => absurd (habove t h) (not_lt.mpr hlt.le)
    have hunion : t ∈ A' ∪ B' := Finset.mem_union_left _ hleast'.1
    refine ⟨fun h => ?_, fun h => ?_, fun (h : A' ∪ B' = A) => hA (h ▸ hunion),
      fun (h : A' ∪ B' = B) => hB (h ▸ hunion)⟩
    · simp only [Prod.mk.injEq] at h
      exact hA (h.1 ▸ hleast'.1)
    · simp only [Prod.swap_prod_mk, Prod.mk.injEq] at h
      exact hB (h.1 ▸ hleast'.1)

/-! ### Every connected pair is met -/

/-- An assembled set is grown from its lowest vertex. -/
lemma mem_growths_of_assembled (hE : E.Lawful U edges)
    (hok : ∀ A B, ok A B → Connects edges A B) {A : Finset α} (hA : Assembled W ok A) {s : α}
    (hs : IsLeast (A : Set α) s) : A ∈ E.growths s := by
  by_cases heq : A = {s}
  · exact heq ▸ List.mem_cons_self
  · refine List.mem_cons_of_mem _ (mem_visits_of_growable hE.subsets (avoids hE) ?_ ?_ ?_ ?_)
    · exact (Finset.card_le_card Finset.sdiff_subset).trans_lt hE.depth
    · exact Finset.ssubset_iff_subset_ne.mpr
        ⟨Finset.singleton_subset_iff.mpr hs.1, fun h => heq h.symm⟩
    · intro v hv
      obtain ⟨hvs, hvA⟩ := Finset.mem_inter.mp hv
      exact Finset.mem_singleton.mpr (le_antisymm (Finset.mem_Iic.mp hvs) (hs.2 hvA))
    · exact growable_of_assembled hE hok hA (Finset.singleton_nonempty s)

/-- An assembled set that an edge connects to `A` and that lies above the lowest vertex of `A` is
one of the complements of `A`: it is grown from the lowest neighbor of `A` it holds. -/
lemma mem_complements_of_assembled (hE : E.Lawful U edges)
    (hok : ∀ A B, ok A B → Connects edges A B) {A B : Finset α} (hB : Assembled W ok B)
    (hdisj : Disjoint A B) (hlow : ∀ w ∈ B, E.lowest A < w) (hconn : Connects edges A B) :
    B ∈ E.complements A := by
  have hmeet : (B ∩ E.nbr A (Finset.Iic (E.lowest A))).Nonempty := by
    by_contra hstuck
    rw [Finset.not_nonempty_iff_eq_empty] at hstuck
    have hX : Finset.Iic (E.lowest A) ∩ B ⊆ A := by
      intro w hw
      obtain ⟨hwA, hwB⟩ := Finset.mem_inter.mp hw
      exact absurd (hlow w hwB) (not_lt.mpr (Finset.mem_Iic.mp hwA))
    obtain ⟨w, hw⟩ := meets_of_stuck hE hconn (Finset.Subset.refl A) hX hstuck
    obtain ⟨hwA, hwB⟩ := Finset.mem_inter.mp hw
    exact Finset.disjoint_left.mp hdisj hwA hwB
  obtain ⟨hvmem, hleast⟩ := hE.lowest _ hmeet
  set v := E.lowest (B ∩ E.nbr A (Finset.Iic (E.lowest A))) with hv
  obtain ⟨hvB, hvN⟩ := Finset.mem_inter.mp hvmem
  refine List.mem_flatMap.mpr ⟨v, (hE.mem_descending _ ((avoids hE).subset _ _) v).mpr hvN, ?_⟩
  by_cases heq : B = {v}
  · exact heq ▸ List.mem_cons_self
  · refine List.mem_cons_of_mem _ (mem_visits_of_growable hE.subsets (avoids hE) ?_ ?_ ?_ ?_)
    · exact (Finset.card_le_card Finset.sdiff_subset).trans_lt hE.depth
    · exact Finset.ssubset_iff_subset_ne.mpr
        ⟨Finset.singleton_subset_iff.mpr hvB, fun h => heq h.symm⟩
    · intro w hw
      obtain ⟨hwX, hwB⟩ := Finset.mem_inter.mp hw
      simp only [Enumeration.complementForbidden, Finset.mem_union, Finset.mem_inter,
        Finset.mem_Iic] at hwX
      rcases hwX with (hw | hw) | ⟨hw, hwN⟩
      · exact absurd (hlow w hwB) (not_lt.mpr hw)
      · exact absurd hwB (Finset.disjoint_left.mp hdisj hw)
      · exact Finset.mem_singleton.mpr
          (le_antisymm hw (hleast (Finset.mem_coe.mpr (Finset.mem_inter.mpr ⟨hwB, hwN⟩))))
    · exact growable_of_assembled hE hok hB (Finset.singleton_nonempty v)

/-- **Every connected pair of assembled sets is scheduled**, with the lower side first. -/
theorem mem_schedule_of_assembled (hE : E.Lawful U edges) (hW : W ⊆ U)
    (hok : ∀ A B, ok A B → Connects edges A B) {A B : Finset α} (hA : Assembled W ok A)
    (hB : Assembled W ok B) (hdisj : Disjoint A B) (hconn : Connects edges A B)
    (hlt : E.lowest A < E.lowest B) : (A, B) ∈ E.schedule W := by
  have hAl := hE.lowest A hA.nonempty
  have hBl := hE.lowest B hB.nonempty
  refine List.mem_flatMap.mpr ⟨E.lowest A, (hE.mem_descending W hW _).mpr (hA.subset hAl.1), ?_⟩
  refine List.mem_flatMap.mpr ⟨A, mem_growths_of_assembled hE hok hA hAl, ?_⟩
  refine List.mem_map.mpr ⟨B, ?_, rfl⟩
  exact mem_complements_of_assembled hE hok hB hdisj (fun w hw => hlt.trans_le (hBl.2 hw)) hconn

end static

/-! ### Processing the schedule -/

/-- Processing pairs in order, from the recorded sets `M` to the recorded sets `M'`: a pair may
record its union, if both its sides are recorded and it is admissible, and records nothing else. -/
inductive Runs (ok : Finset α → Finset α → Prop) :
    List (Finset α × Finset α) → (Finset α → Prop) → (Finset α → Prop) → Prop
  | nil {M : Finset α → Prop} : Runs ok [] M M
  | cons {p : Finset α × Finset α} {l : List (Finset α × Finset α)} {M M' M'' : Finset α → Prop} :
      (∀ S, M S → M' S) →
      (∀ S, M' S → M S ∨ M p.1 ∧ M p.2 ∧ ok p.1 p.2 ∧ S = p.1 ∪ p.2) →
      Runs ok l M' M'' → Runs ok (p :: l) M M''

namespace Runs

variable {W : Finset α} {ok : Finset α → Finset α → Prop}
  {l l' : List (Finset α × Finset α)} {M M' M'' : Finset α → Prop}

/-- Records are never withdrawn. -/
lemma mono (h : Runs ok l M M') : ∀ S, M S → M' S := by
  induction h with
  | nil => exact fun _ h => h
  | cons hkeep _ _ ih => exact fun S hS => ih S (hkeep S hS)

/-- Two stretches of pairs one after the other. -/
lemma append (h : Runs ok l M M') (h' : Runs ok l' M' M'') : Runs ok (l ++ l') M M'' := by
  induction h with
  | nil => exact h'
  | cons hkeep hnew _ ih => exact .cons hkeep hnew (ih h')

/-- A stretch of pairs taken apart. -/
lemma of_append : ∀ {l : List (Finset α × Finset α)} {M : Finset α → Prop},
    Runs ok (l ++ l') M M'' → ∃ M', Runs ok l M M' ∧ Runs ok l' M' M''
  | [], M, h => ⟨M, .nil, h⟩
  | _ :: _, _, .cons hkeep hnew h => by
    obtain ⟨M', h₁, h₂⟩ := of_append h
    exact ⟨M', .cons hkeep hnew h₁, h₂⟩

/-- A recorded set was recorded before, or some processed pair has it as its union. -/
lemma inv (h : Runs ok l M M') : ∀ {S}, M' S → M S ∨ ∃ q ∈ l, q.1 ∪ q.2 = S := by
  induction h with
  | nil => exact fun h => Or.inl h
  | @cons p l _ _ _ _ hnew _ ih =>
    intro S hS
    rcases ih hS with hS | ⟨q, hq, rfl⟩
    · rcases hnew S hS with hS | ⟨-, -, -, rfl⟩
      · exact Or.inl hS
      · exact Or.inr ⟨p, List.mem_cons_self, rfl⟩
    · exact Or.inr ⟨q, List.mem_cons_of_mem _ hq, rfl⟩

/-- A recorded set was recorded before, or is the union of an admissible processed pair whose sides
are recorded. -/
lemma origin (h : Runs ok l M M') : ∀ {S}, M' S →
    M S ∨ ∃ q ∈ l, M' q.1 ∧ M' q.2 ∧ ok q.1 q.2 ∧ S = q.1 ∪ q.2 := by
  induction h with
  | nil => exact fun h => Or.inl h
  | @cons p l _ _ _ hkeep hnew hrun ih =>
    intro S hS
    rcases ih hS with hS | ⟨q, hq, hsides⟩
    · rcases hnew S hS with hS | ⟨h₁, h₂, hok, rfl⟩
      · exact Or.inl hS
      · exact Or.inr ⟨p, List.mem_cons_self, hrun.mono _ (hkeep _ h₁), hrun.mono _ (hkeep _ h₂),
          hok, rfl⟩
    · exact Or.inr ⟨q, List.mem_cons_of_mem _ hq, hsides⟩

/-- Whatever is recorded from assembled sets by disjoint pairs is assembled. -/
lemma assembled (h : Runs ok l M M') (hl : ∀ p ∈ l, Disjoint p.1 p.2)
    (hM : ∀ S, M S → Assembled W ok S) : ∀ S, M' S → Assembled W ok S := by
  induction h with
  | nil => exact hM
  | @cons p l _ _ _ _ hnew _ ih =>
    refine ih (fun q hq => hl q (List.mem_cons_of_mem _ hq)) fun S hS => ?_
    rcases hnew S hS with hS | ⟨h₁, h₂, hp, rfl⟩
    · exact hM S hS
    · exact .join (hM _ h₁) (hM _ h₂) (hl p List.mem_cons_self) hp

end Runs

section complete

variable {E : Enumeration α} {U W : Finset α} {edges : Set (Hyperedge α)}
  {ok : Finset α → Finset α → Prop}

/-- **Both sides are complete when their pair is met.** If the schedule puts `p` between `l₁` and
`l₂`, then a side of `p` that is ever recorded has been recorded before `p`. -/
lemma recorded_before (hE : E.Lawful U edges) (hW : W ⊆ U) {M₁ M₂ : Finset α → Prop}
    {l₁ l₂ : List (Finset α × Finset α)} {p : Finset α × Finset α}
    (hsplit : E.schedule W = l₁ ++ p :: l₂) (hrun : Runs ok (p :: l₂) M₁ M₂) {S : Finset α}
    (hS : S = p.1 ∨ S = p.2) (hrec : M₂ S) : M₁ S := by
  have hpair := schedule_pairwise hE hW
  have hmem : p ∈ E.schedule W := by simp [hsplit]
  obtain ⟨hdisj, ⟨w, hw⟩, s, -, hleast, habove⟩ := mem_schedule_shape hE hW hmem
  rw [hsplit] at hpair
  have hlater := (List.pairwise_cons.mp (List.pairwise_append.mp hpair).2.1).1
  rcases hrun.inv hrec with h | ⟨q, hq, hunion⟩
  · exact h
  · exfalso
    rcases List.mem_cons.mp hq with rfl | hq
    · -- The pair's own union holds a vertex of each side.
      rcases hS with rfl | rfl
      · exact Finset.disjoint_left.mp hdisj (hunion ▸ Finset.mem_union_right _ hw) hw
      · have : s ∈ q.2 := hunion ▸ Finset.mem_union_left _ hleast.1
        exact lt_irrefl s (habove s this)
    · obtain ⟨-, -, h₁, h₂⟩ := hlater q hq
      rcases hS with rfl | rfl
      · exact h₁ hunion
      · exact h₂ hunion

/-- **A run over the schedule that skips no admissible pair records exactly the assembled sets.** -/
theorem runs_iff (hE : E.Lawful U edges) (hW : W ⊆ U)
    (hok : ∀ A B, ok A B → Connects edges A B) (hsymm : ∀ A B, ok A B → ok B A)
    {M : Finset α → Prop} (hrun : Runs ok (E.schedule W) (fun T => ∃ v ∈ W, T = {v}) M)
    (hall : ∀ p ∈ E.schedule W, M p.1 → M p.2 → ok p.1 p.2 → M (p.1 ∪ p.2)) (S : Finset α) :
    M S ↔ Assembled W ok S := by
  constructor
  · refine hrun.assembled (fun p hp => (mem_schedule_shape hE hW hp).1) ?_ S
    rintro T ⟨v, hv, rfl⟩
    exact .single hv
  · intro hS
    induction hS with
    | @single v hv => exact hrun.mono _ ⟨v, hv, rfl⟩
    | @join A B hA hB hdisj hAB ihA ihB =>
      have hne : E.lowest A ≠ E.lowest B := fun h =>
        Finset.disjoint_left.mp hdisj (hE.lowest A hA.nonempty).1
          (h ▸ (hE.lowest B hB.nonempty).1)
      -- The pair is scheduled with the lower side first.
      rcases lt_or_gt_of_ne hne with hlt | hlt
      · exact hall _ (mem_schedule_of_assembled hE hW hok hA hB hdisj (hok A B hAB) hlt) ihA ihB hAB
      · have hBA := hsymm A B hAB
        rw [Finset.union_comm]
        exact hall _ (mem_schedule_of_assembled hE hW hok hB hA hdisj.symm (hok B A hBA) hlt)
          ihB ihA hBA

end complete

end Verax.Lib.ConnectedPairs
