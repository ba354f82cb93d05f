import Verax.DistinctAggregates.Markers

/-!
# The lowered input

The nodes that the lowering puts over an input, one group after another. Each keeps the rows up to
the markers, the markers of the groups below it, and what the physical properties say.

* `Placed`: what physical properties say of rows, for keys of the input.
* `Lowered`: what holds of the nodes for some groups.
* `lowered_addMarkDistinct`, `lowered_foldl`: one group, and all of them.
-/

namespace Verax.DistinctAggregates

open Lib.Representatives

variable {V : Type} {engine : Engine V} {firstId numDrivers : ℕ} {base : PhysicalProperties V}

/-! ### Groups -/

namespace MarkDistinctGroup.WellFormed

variable {group : MarkDistinctGroup V}

/-- An entry of a group is a mask with its marker. -/
lemma exists_mask (h : group.WellFormed firstId) {p : Option (Expr V) × Column}
    (hp : p ∈ group.filterToMarker) :
    ∃ mask, (mask, p.2) ∈ markerFilters group.markers group.masks ∧ p.1 = mask.map .column ∧
      ∀ c, mask = some c → c.id < firstId := by
  rw [h.filters] at hp
  obtain ⟨⟨mask, marker⟩, hmem, rfl⟩ := List.mem_map.mp hp
  refine ⟨mask, hmem, rfl, fun c hc => h.masks c ?_⟩
  have hmask := (List.of_mem_zip hmem).1
  rw [hc] at hmask
  simpa using hmask

lemma marker_mem (h : group.WellFormed firstId) {p : Option (Expr V) × Column}
    (hp : p ∈ group.filterToMarker) : p.2 ∈ group.markers := by
  obtain ⟨mask, hmem, -⟩ := h.exists_mask hp
  exact (List.of_mem_zip hmem).2

lemma ignores (h : group.WellFormed firstId) {p : Option (Expr V) × Column}
    (hp : p ∈ group.filterToMarker) {columns : List Column}
    (hfresh : ∀ c ∈ columns, firstId ≤ c.id) : Ignores engine columns p.1 := by
  obtain ⟨mask, -, hmask, hbelow⟩ := h.exists_mask hp
  rw [hmask]
  exact ignores_column fun c hc hmem => absurd (hfresh c hmem) (by have := hbelow c hc; omega)

end MarkDistinctGroup.WellFormed

/-- The markers of some groups. -/
def allMarkers (groups : List (MarkDistinctGroup V)) : List Column := groups.flatMap (·.markers)

/-! ### Physical properties -/

variable [Setoid V]

lemma coLocated_mono {keys keys' : List Column} (hsub : keys ⊆ keys')
    {drivers : List (List (Row V))} (h : CoLocated keys drivers) : CoLocated keys' drivers :=
  h.imp fun hapart row hrow row' hrow' hsame =>
    hapart row hrow row' hrow' fun c hc => hsame c (hsub hc)

lemma coLocated_map_erase (engine : Engine V) {keys columns : List Column}
    (h : ∀ c ∈ keys, c ∉ columns) {drivers : List (List (Row V))} :
    CoLocated keys (drivers.map (List.map (erase engine columns))) ↔ CoLocated keys drivers := by
  simp only [CoLocated, List.pairwise_map, List.forall_mem_map, sameKeys_erase engine h]

variable [DecidableEq V]

/-- What physical properties say of rows, for keys of the input. -/
structure Placed (firstId : ℕ) (properties : PhysicalProperties V)
    (drivers : List (List (Row V))) : Prop where
  located : ∀ keys : List Column, (∀ c ∈ keys, c.id < firstId) →
    properties.driverPartition = .gather ∨ properties.driverPartition.coLocates keys = true →
    CoLocated keys drivers
  unique : ∀ key ∈ properties.globalUnique, (∀ c ∈ key, c.id < firstId) →
    drivers.flatten.Pairwise fun row row' => ¬ ∀ c ∈ key, row c ≈ row' c

lemma placed_of_holds {drivers : List (List (Row V))} (h : base.Holds engine drivers) :
    Placed firstId base drivers where
  located keys _ hbase := by
    rcases hbase with hgather | hpartition
    · refine (h.gather hgather).imp fun hempty row hrow row' hrow' _ => ?_
      rcases hempty with rfl | rfl
      · cases hrow
      · cases hrow'
    · cases hpartitioned : base.driverPartition with
      | partitioned exprs =>
          rw [hpartitioned, Partitioning.coLocates, Bool.and_eq_true, List.all_eq_true]
            at hpartition
          refine (h.partitioned exprs hpartitioned).imp fun hapart row hrow row' hrow' hsame =>
            hapart row hrow row' hrow' ?_
          refine List.forall₂_map_left_iff.mpr (List.forall₂_map_right_iff.mpr
            (List.forall₂_same.mpr fun e he => ?_))
          obtain ⟨c, hc, rfl⟩ := List.mem_map.mp (of_decide_eq_true (hpartition.2 e he))
          exact hsame c hc
      | unspecified => rw [hpartitioned] at hpartition; cases hpartition
      | gather => rw [hpartitioned] at hpartition; cases hpartition
      | broadcast => rw [hpartitioned] at hpartition; cases hpartition
      | arbitrary => rw [hpartitioned] at hpartition; cases hpartition
  unique key hkey _ := h.unique key hkey

namespace Placed

variable {properties : PhysicalProperties V} {drivers : List (List (Row V))}

/-- Rows are placed as the lowering asks. -/
lemma coLocated (h : Placed firstId properties drivers) {keys : List Column}
    (hkeys : ∀ c ∈ keys, c.id < firstId) (hlocates : properties.coLocates keys = true) :
    CoLocated keys drivers := by
  rw [PhysicalProperties.coLocates, Bool.or_eq_true, Bool.or_eq_true, Bool.and_eq_true,
    decide_eq_true_eq] at hlocates
  rcases hlocates with (hgather | ⟨-, hpartition⟩) | hunique
  · exact h.located keys hkeys (.inl hgather)
  · exact h.located keys hkeys (.inr hpartition)
  · obtain ⟨key, hkey, hsub⟩ := List.any_eq_true.mp hunique
    have hsub : ∀ c ∈ key, c ∈ keys := fun c hc =>
      List.mem_toFinset.mp (of_decide_eq_true hsub hc)
    refine (List.pairwise_flatten.mp (h.unique key hkey fun c hc => hkeys c (hsub c hc))).2.imp
      fun hapart row hrow row' hrow' hsame => hapart row hrow row' hrow' fun c hc =>
        hsame c (hsub c hc)

/-- An exchange places rows on its keys. -/
lemma exchange (h : Placed firstId properties drivers) {output : List (List (Row V))}
    (hperm : output.flatten.Perm drivers.flatten) {keys : List Column}
    (hlocated : CoLocated keys output) :
    Placed firstId ⟨.partitioned (keys.map .column), properties.globalUnique⟩ output where
  located keys' _ hpartition := by
    rcases hpartition with hgather | hpartition
    · cases hgather
    · rw [Partitioning.coLocates, Bool.and_eq_true, List.all_eq_true] at hpartition
      refine coLocated_mono (fun c hc => ?_) hlocated
      have hmem := of_decide_eq_true (hpartition.2 _ (List.mem_map_of_mem hc))
      obtain ⟨c', hc', heq⟩ := List.mem_map.mp hmem
      cases heq
      exact hc'
  unique key hkey hbelow := by
    refine hperm.symm.pairwise (h.unique key hkey hbelow) fun hapart hsame => hapart fun c hc => ?_
    exact Setoid.symm (hsame c hc)

/-- The placement of rows does not depend on fresh columns. -/
lemma map_erase (engine : Engine V) {columns : List Column} (hfresh : ∀ c ∈ columns, firstId ≤ c.id) :
    Placed firstId properties (drivers.map (List.map (erase engine columns))) ↔
      Placed firstId properties drivers := by
  have hout : ∀ c : Column, c.id < firstId → c ∉ columns := fun c hc hmem =>
    absurd (hfresh c hmem) (by omega)
  have hlocated : ∀ keys : List Column, (∀ c ∈ keys, c.id < firstId) →
      (CoLocated keys (drivers.map (List.map (erase engine columns))) ↔
        CoLocated keys drivers) :=
    fun keys hkeys => coLocated_map_erase engine fun c hc => hout c (hkeys c hc)
  have hunique : ∀ key : Finset Column, (∀ c ∈ key, c.id < firstId) →
      ((drivers.map (List.map (erase engine columns))).flatten.Pairwise
        (fun row row' => ¬ ∀ c ∈ key, row c ≈ row' c) ↔
      drivers.flatten.Pairwise fun row row' => ¬ ∀ c ∈ key, row c ≈ row' c) := by
    intro key hkey
    rw [← List.map_flatten, List.pairwise_map]
    refine iff_of_eq (congrArg (fun R => drivers.flatten.Pairwise R)
      (funext fun row => funext fun row' => propext (not_congr (forall₂_congr fun c hc => ?_))))
    rw [erase_of_not_mem engine (hout c (hkey c hc)), erase_of_not_mem engine (hout c (hkey c hc))]
  constructor
  · exact fun h => ⟨fun keys hkeys hp => (hlocated keys hkeys).mp (h.located keys hkeys hp),
      fun key hkey hbelow => (hunique key hbelow).mp (h.unique key hkey hbelow)⟩
  · exact fun h => ⟨fun keys hkeys hp => (hlocated keys hkeys).mpr (h.located keys hkeys hp),
      fun key hkey hbelow => (hunique key hbelow).mpr (h.unique key hkey hbelow)⟩

end Placed

/-! ### Nodes -/

variable [DecidableRel fun v w : V => v ≈ w]

/-- What holds of the output of the nodes for some groups. -/
structure Output (engine : Engine V) (firstId numDrivers : ℕ) (done : List (MarkDistinctGroup V))
    (properties : PhysicalProperties V) (drivers output : List (List (Row V))) : Prop where
  rows : (output.flatten : Multiset (Row V)).map (erase engine (allMarkers done)) =
    (drivers.flatten : Multiset (Row V)).map (erase engine (allMarkers done))
  placed : Placed firstId properties output
  length : output.length ≤ numDrivers
  marked : ∀ group ∈ done, ∀ p ∈ group.filterToMarker,
    Marked engine group.keys p.1 p.2 (output.flatten : Multiset (Row V))

/-- What holds of the nodes for some groups. -/
structure Lowered (engine : Engine V) (base : PhysicalProperties V) (firstId numDrivers : ℕ)
    (drivers : List (List (Row V))) (done : List (MarkDistinctGroup V)) (node : Node) : Prop where
  runs : ∃ output, node.Runs engine numDrivers drivers output
  output : ∀ output, node.Runs engine numDrivers drivers output →
    Output engine firstId numDrivers done (node.physicalProperties base) drivers output

variable {drivers : List (List (Row V))} {done : List (MarkDistinctGroup V)} {node : Node}

lemma lowered_input (hlength : drivers.length ≤ numDrivers) (h : base.Holds engine drivers) :
    Lowered engine base firstId numDrivers drivers [] .input where
  runs := ⟨drivers, rfl⟩
  output := by
    rintro _ rfl
    exact ⟨rfl, placed_of_holds h, hlength, by simp⟩

/-- An exchange. -/
lemma lowered_exchange (h : Lowered engine base firstId numDrivers drivers done node)
    (hdrivers : 1 ≤ numDrivers) (keys : List Column) :
    Lowered engine base firstId numDrivers drivers done (.exchange node keys) where
  runs := by
    obtain ⟨middle, hmiddle⟩ := h.runs
    -- All rows may go to one driver.
    exact ⟨[middle.flatten], middle, hmiddle, by simp, by simp [CoLocated], hdrivers⟩
  output := by
    rintro output ⟨middle, hmiddle, hperm, hlocated, hlength⟩
    have hbelow := h.output middle hmiddle
    have hrows : (output.flatten : Multiset (Row V)) = middle.flatten :=
      Multiset.coe_eq_coe.mpr hperm
    refine ⟨?_, hbelow.placed.exchange hperm hlocated, hlength, ?_⟩
    · rw [hrows]
      exact hbelow.rows
    · rw [hrows]
      exact hbelow.marked

/-- A MarkDistinct over rows that share its keys on one driver. -/
lemma lowered_markDistinct (h : Lowered engine base firstId numDrivers drivers done node)
    {group : MarkDistinctGroup V} (hgroup : group.WellFormed firstId)
    (hdone : ∀ group ∈ done, group.WellFormed firstId)
    (hnodup : (allMarkers (done ++ [group])).Nodup)
    (hfresh : ∀ c ∈ allMarkers (done ++ [group]), firstId ≤ c.id)
    (hlocated : ∀ output, node.Runs engine numDrivers drivers output →
      CoLocated group.keys output) :
    Lowered engine base firstId numDrivers drivers (done ++ [group])
      (.markDistinct node group.markers group.keys group.masks) where
  runs := by
    obtain ⟨middle, hmiddle⟩ := h.runs
    exact ⟨_, middle, hmiddle, rfl⟩
  output := by
    rintro _ ⟨middle, hmiddle, rfl⟩
    have hbelow := h.output middle hmiddle
    have happend : allMarkers (done ++ [group]) = allMarkers done ++ group.markers := by
      simp [allMarkers]
    rw [happend] at hnodup hfresh
    have hmarkers : ∀ c ∈ group.markers, firstId ≤ c.id := fun c hc =>
      hfresh c (List.mem_append_right _ hc)
    have hout : ∀ c : Column, c.id < firstId → c ∉ group.markers := fun c hc hmem =>
      absurd (hmarkers c hmem) (by omega)
    set output := middle.map (mapSeen (markRow engine group.markers group.keys group.masks) [])
      with houtput
    have hdrivers : output.map (List.map (erase engine group.markers)) =
        middle.map (List.map (erase engine group.markers)) := by
      rw [houtput, List.map_map]
      exact List.map_congr_left fun rows _ => map_erase_mapSeen rows
    have hrows : (output.flatten : Multiset (Row V)).map (erase engine group.markers) =
        (middle.flatten : Multiset (Row V)).map (erase engine group.markers) := by
      rw [Multiset.map_coe, Multiset.map_coe, List.map_flatten, hdrivers, List.map_flatten]
    refine ⟨?_, ?_, by simpa [houtput] using hbelow.length, ?_⟩
    · rw [happend, ← map_erase_append engine hbelow.rows, erase_append_comm]
      exact map_erase_append engine hrows _
    · refine (Placed.map_erase engine hmarkers).mp ?_
      rw [hdrivers]
      exact (Placed.map_erase engine hmarkers).mpr hbelow.placed
    · intro other hother p hp
      rcases List.mem_append.mp hother with hother | hother
      · have hwf := hdone other hother
        refine (hbelow.marked other hother p hp).transfer hrows
          (fun c hc => hout c (hwf.keys c hc)) (hwf.ignores hp hmarkers) fun hmem => ?_
        exact List.disjoint_of_nodup_append hnodup
          (List.mem_flatMap.mpr ⟨other, hother, hwf.marker_mem hp⟩) hmem
      · obtain rfl := List.mem_singleton.mp hother
        obtain ⟨mask, hmem, hmask, hmaskBelow⟩ := hgroup.exists_mask hp
        rw [hmask]
        refine marked_flatten ?_ fun rows hrows' => ?_
        · rw [← coLocated_map_erase engine fun c hc => hout c (hgroup.keys c hc),
            hdrivers, coLocated_map_erase engine fun c hc => hout c (hgroup.keys c hc)]
          exact hlocated middle hmiddle
        · obtain ⟨source, -, rfl⟩ := List.mem_map.mp hrows'
          exact marked_mapSeen (List.nodup_append.mp hnodup).2.1 hgroup.length
            (fun c hc => hout c (hgroup.keys c hc)) (fun c hc => hout c (hmaskBelow c hc)) hmem
            source

/-- The node of a group. -/
lemma lowered_addMarkDistinct (h : Lowered engine base firstId numDrivers drivers done node)
    {group : MarkDistinctGroup V} (hgroup : group.WellFormed firstId)
    (hdone : ∀ group ∈ done, group.WellFormed firstId)
    (hnodup : (allMarkers (done ++ [group])).Nodup)
    (hfresh : ∀ c ∈ allMarkers (done ++ [group]), firstId ≤ c.id) :
    Lowered engine base firstId numDrivers drivers (done ++ [group])
      (addMarkDistinct base numDrivers node group) := by
  unfold addMarkDistinct
  split
  · next hexchange =>
      refine lowered_markDistinct (lowered_exchange h hexchange.1.le group.keys) hgroup hdone hnodup
        hfresh ?_
      rintro output ⟨-, -, -, hlocated, -⟩
      exact hlocated
  · next hdirect =>
      refine lowered_markDistinct h hgroup hdone hnodup hfresh fun output houtput => ?_
      have hbelow := h.output output houtput
      by_cases hdrivers : numDrivers > 1
      · refine hbelow.placed.coLocated hgroup.keys ?_
        rw [not_and, Bool.not_eq_false] at hdirect
        exact hdirect hdrivers
      · have hlength := hbelow.length
        match output with
        | [] => exact List.Pairwise.nil
        | [rows] => exact List.pairwise_singleton _ _
        | _ :: _ :: _ =>
            simp only [List.length_cons] at hlength
            omega

/-- The nodes of all groups. -/
lemma lowered_foldl : ∀ {groups done : List (MarkDistinctGroup V)} {node : Node},
    Lowered engine base firstId numDrivers drivers done node →
    (∀ group ∈ done ++ groups, group.WellFormed firstId) →
    (allMarkers (done ++ groups)).Nodup → (∀ c ∈ allMarkers (done ++ groups), firstId ≤ c.id) →
    Lowered engine base firstId numDrivers drivers (done ++ groups)
      (groups.foldl (addMarkDistinct base numDrivers) node)
  | [], done, node, h, _, _, _ => by simpa using h
  | group :: groups, done, node, h, hwf, hnodup, hfresh => by
      have hsplit : done ++ group :: groups = done ++ [group] ++ groups := by simp
      rw [hsplit] at hwf hnodup hfresh ⊢
      have hpart : allMarkers (done ++ [group] ++ groups) =
          allMarkers (done ++ [group]) ++ allMarkers groups := by
        simp [allMarkers]
      rw [hpart] at hnodup hfresh
      refine lowered_foldl (lowered_addMarkDistinct h (hwf group (by simp))
        (fun g hg => hwf g (by simp [hg])) (List.nodup_append.mp hnodup).1
        fun c hc => hfresh c (List.mem_append_left _ hc)) hwf ?_ ?_
      · rw [hpart]
        exact hnodup
      · rw [hpart]
        exact hfresh

end Verax.DistinctAggregates
