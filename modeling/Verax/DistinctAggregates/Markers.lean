import Verax.DistinctAggregates.Groups

/-!
# Markers

What a MarkDistinct node and an exchange do to rows. Their output has the rows of their input up to
the markers, and a marker is true on one of the rows of each tuple that pass its FILTER.

* `erase`: a row without some columns.
* `Marked`: what a marker says of rows.
* `marked_mapSeen`, `marked_flatten`: one driver, and drivers that share no tuple.
* `Placed`: what physical properties say of rows, for the keys that the lowering asks about.
-/

namespace Verax.DistinctAggregates

open Lib.Dictionary Lib.Representatives

variable {V : Type} (engine : Engine V)

/-! ### Rows without some columns -/

/-- A row without some columns. -/
def erase (columns : List Column) (row : Row V) : Row V :=
  fun c => if c ∈ columns then engine.boolean false else row c

lemma erase_of_not_mem {columns : List Column} {c : Column} (h : c ∉ columns) (row : Row V) :
    erase engine columns row c = row c := if_neg h

lemma erase_erase (columns columns' : List Column) (row : Row V) :
    erase engine columns' (erase engine columns row) = erase engine (columns ++ columns') row := by
  funext c
  simp only [erase, List.mem_append]
  split <;> split <;> simp_all

lemma erase_append_comm (columns columns' : List Column) :
    erase engine (columns ++ columns') = erase engine (columns' ++ columns) := by
  funext row c
  simp only [erase, List.mem_append, or_comm]

/-- Bags that agree up to some columns agree up to more. -/
lemma map_erase_append {columns : List Column} {rows rows' : Multiset (Row V)}
    (h : rows.map (erase engine columns) = rows'.map (erase engine columns))
    (columns' : List Column) :
    rows.map (erase engine (columns ++ columns')) =
      rows'.map (erase engine (columns ++ columns')) := by
  have hcomp : erase engine (columns ++ columns') = erase engine columns' ∘ erase engine columns :=
    funext fun row => (erase_erase engine columns columns' row).symm
  rw [hcomp, ← Multiset.map_map, h, Multiset.map_map]

/-- A condition that leaves some columns alone. -/
def Ignores (columns : List Column) (filter : Option (Expr V)) : Prop :=
  ∀ row, engine.accepts filter (erase engine columns row) = engine.accepts filter row

variable {engine} in
lemma ignores_column {columns : List Column} {mask : Option Column}
    (h : ∀ c, mask = some c → c ∉ columns) : Ignores engine columns (mask.map Expr.column) := by
  intro row
  cases mask with
  | none => rfl
  | some c => simp [Engine.accepts, Engine.eval, erase_of_not_mem engine (h c rfl)]

variable [Setoid V] [DecidableRel fun v w : V => v ≈ w]

omit [DecidableRel fun v w : V => v ≈ w] in
lemma sameKeys_erase {keys columns : List Column} (h : ∀ c ∈ keys, c ∉ columns)
    (row row' : Row V) :
    SameKeys keys (erase engine columns row) (erase engine columns row') ↔
      SameKeys keys row row' := by
  refine forall₂_congr fun c hc => ?_
  rw [erase_of_not_mem engine (h c hc), erase_of_not_mem engine (h c hc)]

/-! ### What a marker says -/

/-- A marker is true on rows that pass a FILTER, on one of each tuple of some keys. -/
structure Marked (keys : List Column) (filter : Option (Expr V)) (marker : Column)
    (rows : Multiset (Row V)) : Prop where
  accepted : ∀ row ∈ rows, engine.truth (row marker) = true → engine.accepts filter row = true
  once : ∀ row ∈ rows, engine.accepts filter row = true →
    rows.countP (fun row' => engine.truth (row' marker) = true ∧ SameKeys keys row' row) = 1

section Marked

variable {engine} {keys : List Column} {filter : Option (Expr V)} {marker : Column}
  {rows rows' : Multiset (Row V)} {columns : List Column}

/-- The rows with a true marker represent the rows that pass the FILTER. -/
lemma Marked.represents (h : Marked engine keys filter marker rows) :
    Represents (SameKeys keys) (rows.filter fun row => engine.truth (row marker) = true)
      (rows.filter fun row => engine.accepts filter row = true) := by
  refine ⟨?_, fun row hrow => ?_⟩
  · refine Multiset.le_filter.mpr ⟨Multiset.filter_le _ _, fun row hrow => ?_⟩
    obtain ⟨hrow, htrue⟩ := Multiset.mem_filter.mp hrow
    exact h.accepted row hrow htrue
  · obtain ⟨hrow, haccepts⟩ := Multiset.mem_filter.mp hrow
    rw [Multiset.countP_filter, ← h.once row hrow haccepts]
    exact Multiset.countP_congr rfl fun _ _ => propext and_comm

/-- A marker does not depend on other columns. -/
lemma marked_map_erase (hkeys : ∀ c ∈ keys, c ∉ columns) (hfilter : Ignores engine columns filter)
    (hmarker : marker ∉ columns) :
    Marked engine keys filter marker (rows.map (erase engine columns)) ↔
      Marked engine keys filter marker rows := by
  have hcount : ∀ row, (rows.map (erase engine columns)).countP
      (fun row' => engine.truth (row' marker) = true ∧
        SameKeys keys row' (erase engine columns row)) =
      rows.countP fun row' => engine.truth (row' marker) = true ∧ SameKeys keys row' row := by
    intro row
    rw [Multiset.countP_map, ← Multiset.countP_eq_card_filter]
    refine Multiset.countP_congr rfl fun row' _ => propext ?_
    rw [erase_of_not_mem engine hmarker, sameKeys_erase engine hkeys]
  constructor
  · intro h
    refine ⟨fun row hrow htrue => ?_, fun row hrow haccepts => ?_⟩
    · rw [← hfilter]
      refine h.accepted _ (Multiset.mem_map_of_mem _ hrow) ?_
      rwa [erase_of_not_mem engine hmarker]
    · rw [← hcount]
      exact h.once _ (Multiset.mem_map_of_mem _ hrow) ((hfilter row).trans haccepts)
  · intro h
    refine ⟨fun row hrow htrue => ?_, fun row hrow haccepts => ?_⟩
    · obtain ⟨source, hsource, rfl⟩ := Multiset.mem_map.mp hrow
      rw [erase_of_not_mem engine hmarker] at htrue
      exact (hfilter source).trans (h.accepted source hsource htrue)
    · obtain ⟨source, hsource, rfl⟩ := Multiset.mem_map.mp hrow
      rw [hcount]
      exact h.once source hsource ((hfilter source).symm.trans haccepts)

/-- A marker of rows is one of rows that agree with them up to other columns. -/
lemma Marked.transfer (h : Marked engine keys filter marker rows)
    (hrows : rows'.map (erase engine columns) = rows.map (erase engine columns))
    (hkeys : ∀ c ∈ keys, c ∉ columns) (hfilter : Ignores engine columns filter)
    (hmarker : marker ∉ columns) : Marked engine keys filter marker rows' := by
  rw [← marked_map_erase hkeys hfilter hmarker, hrows, marked_map_erase hkeys hfilter hmarker]
  exact h

/-- Rows that share no tuple. -/
lemma Marked.add (h : Marked engine keys filter marker rows)
    (h' : Marked engine keys filter marker rows')
    (hapart : ∀ row ∈ rows, ∀ row' ∈ rows', ¬ SameKeys keys row row') :
    Marked engine keys filter marker (rows + rows') := by
  refine ⟨fun row hrow => ?_, fun row hrow haccepts => ?_⟩
  · rcases Multiset.mem_add.mp hrow with hrow | hrow
    · exact h.accepted row hrow
    · exact h'.accepted row hrow
  · rw [Multiset.countP_add]
    rcases Multiset.mem_add.mp hrow with hrow | hrow
    · have hnone : rows'.countP (fun row' => engine.truth (row' marker) = true ∧
          SameKeys keys row' row) = 0 :=
        Multiset.countP_eq_zero.mpr fun row' hrow' hsame =>
          hapart row hrow row' hrow' ((sameKeys_equivalence keys).symm hsame.2)
      rw [h.once row hrow haccepts, hnone]
    · have hnone : rows.countP (fun row' => engine.truth (row' marker) = true ∧
          SameKeys keys row' row) = 0 :=
        Multiset.countP_eq_zero.mpr fun row' hrow' hsame => hapart row' hrow' row hrow hsame.2
      rw [h'.once row hrow haccepts, hnone]

/-- Drivers that share no tuple. -/
lemma marked_flatten : ∀ {drivers : List (List (Row V))}, CoLocated keys drivers →
    (∀ rows ∈ drivers, Marked engine keys filter marker (rows : Multiset (Row V))) →
    Marked engine keys filter marker (drivers.flatten : Multiset (Row V))
  | [], _, _ => ⟨by simp, by simp⟩
  | rows :: drivers, hlocated, h => by
      obtain ⟨hapart, hlocated⟩ := List.pairwise_cons.mp hlocated
      rw [List.flatten_cons, ← Multiset.coe_add]
      refine (h rows List.mem_cons_self).add
        (marked_flatten hlocated fun rows' hrows' => h rows' (List.mem_cons_of_mem _ hrows'))
        fun row hrow row' hrow' => ?_
      obtain ⟨rows', hrows', hmem⟩ := List.mem_flatten.mp (Multiset.mem_coe.mp hrow')
      exact hapart rows' hrows' row hrow row' hmem

end Marked

/-! ### One driver -/

section Driver

variable {engine} {markers masks keys : List Column}

/-- A MarkDistinct node changes its markers only. -/
lemma erase_markRow (seen : List (Row V)) (row : Row V) :
    erase engine markers (markRow engine markers keys masks seen row) =
      erase engine markers row := by
  funext c
  by_cases hc : c ∈ markers
  · simp [erase, hc]
  · have hnone : (markerFilters markers masks).find? (fun p => decide (p.2 = c)) = none := by
      rw [List.find?_eq_none]
      intro p hp heq
      rw [decide_eq_true_eq] at heq
      exact hc (heq ▸ (List.of_mem_zip hp).2)
    simp only [erase, if_neg hc, markRow, hnone]

lemma markRow_of_not_mem {c : Column} (hc : c ∉ markers) (seen : List (Row V)) (row : Row V) :
    markRow engine markers keys masks seen row c = row c := by
  rw [← erase_of_not_mem engine hc (markRow engine markers keys masks seen row), erase_markRow,
    erase_of_not_mem engine hc]

lemma map_erase_mapSeen (rows : List (Row V)) :
    (mapSeen (markRow engine markers keys masks) [] rows).map (erase engine markers) =
      rows.map (erase engine markers) :=
  map_mapSeen erase_markRow rows []

/-- A marker is true on the first row of a tuple. -/
lemma truth_markRow (hnodup : markers.Nodup) (hlength : markers.length = masks.length + 1)
    {mask : Option Column} {marker : Column} (hmarker : (mask, marker) ∈ markerFilters markers masks)
    (seen : List (Row V)) (row : Row V) :
    engine.truth (markRow engine markers keys masks seen row marker) =
      isFirst (SameKeys keys) (passesMask engine mask) seen row := by
  have hseconds : ((markerFilters markers masks).map Prod.snd).Nodup := by
    rw [markerFilters, List.map_snd_zip (by simp [hlength])]
    exact hnodup
  simp only [markRow, find?_key hseconds hmarker, engine.truth_boolean]

/-- The rows of a driver, marked. -/
lemma marked_mapSeen (hnodup : markers.Nodup) (hlength : markers.length = masks.length + 1)
    (hkeys : ∀ c ∈ keys, c ∉ markers) {mask : Option Column} {marker : Column}
    (hmask : ∀ c, mask = some c → c ∉ markers)
    (hmarker : (mask, marker) ∈ markerFilters markers masks) (rows : List (Row V)) :
    Marked engine keys (mask.map .column) marker
      (mapSeen (markRow engine markers keys masks) [] rows : Multiset (Row V)) := by
  have hpasses : ∀ seen row, engine.accepts (mask.map .column)
      (markRow engine markers keys masks seen row) = passesMask engine mask row := by
    intro seen row
    cases mask with
    | none => rfl
    | some c => exact congrArg engine.truth (markRow_of_not_mem (hmask c rfl) seen row)
  have hsame : ∀ seen row row', SameKeys keys (markRow engine markers keys masks seen row) row' ↔
      SameKeys keys row row' := by
    intro seen row row'
    refine forall₂_congr fun c hc => ?_
    rw [markRow_of_not_mem (hkeys c hc)]
  refine ⟨fun row hrow htrue => ?_, fun row hrow haccepts => ?_⟩
  · obtain ⟨seen, source, -, rfl⟩ := exists_of_mem_mapSeen (Multiset.mem_coe.mp hrow)
    rw [truth_markRow hnodup hlength hmarker, isFirst, Bool.and_eq_true] at htrue
    exact (hpasses seen source).trans htrue.1
  · obtain ⟨seen, source, hsource, rfl⟩ := exists_of_mem_mapSeen (Multiset.mem_coe.mp hrow)
    rw [hpasses] at haccepts
    set row := markRow engine markers keys masks seen source
    have hmet : (rows.any fun row' => passesMask engine mask row' && decide (SameKeys keys row' row))
        = true := by
      have hself : SameKeys keys source row :=
        (hsame seen source row).mp ((sameKeys_equivalence keys).refl row)
      exact List.any_eq_true.mpr ⟨source, hsource, by simp [haccepts, hself]⟩
    have hcount := countP_mapSeen (sameKeys_equivalence keys)
      (q := fun row' => engine.truth (row' marker) && decide (SameKeys keys row' row))
      (fun seen' row' => by
        rw [truth_markRow hnodup hlength hmarker, decide_eq_decide.mpr (hsame seen' row' row)])
      rows []
    rw [if_pos hmet] at hcount
    simpa [← List.countP_eq_length_filter, Bool.decide_and] using hcount

end Driver

end Verax.DistinctAggregates
