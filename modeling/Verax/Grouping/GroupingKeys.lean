import Mathlib.Data.Finset.Dedup
import Verax.Grouping.GroupByPlanner
import Verax.Lib.Outcome

/-!
# Grouping keys and their indices

* `Keys.WellFormed`: the table of keys and the list of keys agree.
* `deduplicateGroupingKeys_spec`: the keys are the expressions of the sets, each once, and the
  indices of a set stand for its expressions, each once.
* `deduplicateGroupingSets_spec`: one set of indices for each distinct set of keys, at its first
  position.
-/

namespace Verax.Grouping.GroupByPlanner

open Verax.Lib Verax.Lib.Dictionary

/-- The table gives each key its position. -/
structure Keys.WellFormed (keys : Keys) : Prop where
  nodup : keys.groupingKeys.Nodup
  lookup_iff : ∀ e i, keys.groupingKeyToIndex.lookup e = some i ↔ keys.groupingKeys[i]? = some e

/-- The keys indices stand for. -/
def Keys.keysOf (keys : Keys) (indices : List ℕ) : List IExpr :=
  indices.filterMap (keys.groupingKeys[·]?)

/-- A key is among those indices stand for if its index is one of them. -/
lemma Keys.mem_keysOf {keys : Keys} (hkeys : keys.groupingKeys.Nodup) {indices : List ℕ} {i : ℕ}
    {e : IExpr} (hi : keys.groupingKeys[i]? = some e) : e ∈ keys.keysOf indices ↔ i ∈ indices := by
  rw [Keys.keysOf, List.mem_filterMap]
  constructor
  · rintro ⟨j, hj, hkey⟩
    have hlt := (List.getElem?_eq_some_iff.mp hi).1
    exact (List.getElem?_inj hlt hkeys).mp (hi.trans hkey.symm) ▸ hj
  · exact fun h => ⟨i, h, hi⟩

/-- The indices stand for the expressions, one for one. -/
def Keys.Index (keys : Keys) (indices : List ℕ) (exprs : List IExpr) : Prop :=
  List.Forall₂ (fun i e => keys.groupingKeys[i]? = some e) indices exprs

lemma Keys.Index.keysOf_eq {keys : Keys} {indices : List ℕ} {exprs : List IExpr}
    (h : keys.Index indices exprs) : keys.keysOf indices = exprs := by
  induction h with
  | nil => rfl
  | cons hi _ ih => rw [keysOf, List.filterMap_cons, hi]; exact congrArg _ ih

lemma Keys.Index.lt_length {keys : Keys} {indices : List ℕ} {exprs : List IExpr}
    (h : keys.Index indices exprs) {i : ℕ} (hi : i ∈ indices) : i < keys.groupingKeys.length := by
  induction h with
  | nil => cases hi
  | cons hhead _ ih =>
    rcases List.mem_cons.mp hi with rfl | hi
    · exact (List.getElem?_eq_some_iff.mp hhead).1
    · exact ih hi

/-- Added keys keep the indices of the others. -/
lemma Keys.Index.mono {keys keys' : Keys} {indices : List ℕ} {exprs : List IExpr}
    (h : keys.Index indices exprs) (hleading : keys.groupingKeys <+: keys'.groupingKeys) :
    keys'.Index indices exprs :=
  h.imp fun i e hi => by
    obtain ⟨hlt, rfl⟩ := List.getElem?_eq_some_iff.mp hi
    rw [hleading.getElem hlt]
    exact List.getElem?_eq_getElem _

/-- An index stands for one of the expressions if its key is one. -/
lemma Keys.Index.mem_iff {keys : Keys} (hkeys : keys.groupingKeys.Nodup) {indices : List ℕ}
    {exprs : List IExpr} (h : keys.Index indices exprs) {i : ℕ} {e : IExpr}
    (hi : keys.groupingKeys[i]? = some e) : i ∈ indices ↔ e ∈ exprs := by
  induction h with
  | nil => simp
  | @cons j e' indices exprs hj _ ih =>
    have hsame : i = j ↔ e = e' := by
      constructor
      · rintro rfl
        exact Option.some.inj (hi.symm.trans hj)
      · rintro rfl
        exact (List.getElem?_inj (List.getElem?_eq_some_iff.mp hi).1 hkeys).mp (hi.trans hj.symm)
    rw [List.mem_cons, List.mem_cons, ih, hsame]

/-- Indexing an expression adds it as the last key unless it is one. -/
lemma Keys.WellFormed.indexOf {keys : Keys} (h : keys.WellFormed) (e : IExpr) :
    (keys.indexOf e).1.WellFormed ∧
      (keys.indexOf e).1.groupingKeys =
        (if e ∈ keys.groupingKeys then keys.groupingKeys else keys.groupingKeys ++ [e]) ∧
      (keys.indexOf e).1.groupingKeys[(keys.indexOf e).2]? = some e := by
  rw [Keys.indexOf]
  cases hlookup : keys.groupingKeyToIndex.lookup e with
  | some i =>
    have hi := (h.lookup_iff e i).mp hlookup
    exact ⟨h, (if_pos (List.mem_of_getElem? hi)).symm, hi⟩
  | none =>
    have hnew : e ∉ keys.groupingKeys := by
      intro hmem
      obtain ⟨i, hi⟩ := List.mem_iff_getElem?.mp hmem
      rw [← h.lookup_iff, hlookup] at hi
      cases hi
    refine ⟨⟨?_, fun e' i => ?_⟩, (if_neg hnew).symm, ?_⟩
    · exact List.nodup_append.mpr ⟨h.nodup, List.nodup_singleton e, by
        rintro a ha b hb rfl
        exact hnew (List.mem_singleton.mp hb ▸ ha)⟩
    · by_cases heq : e' = e
      · subst heq
        rw [AList.lookup_insert, Option.some.injEq]
        constructor
        · rintro rfl
          simp
        · intro hi
          rw [List.getElem?_append] at hi
          split at hi
          · exact absurd (List.mem_of_getElem? hi) hnew
          · have hzero := (List.getElem?_eq_some_iff.mp hi).1
            rw [List.length_singleton] at hzero
            omega
      · rw [AList.lookup_insert_ne heq, h.lookup_iff]
        rw [List.getElem?_append]
        split
        · rfl
        · rename_i hlt
          rw [List.getElem?_eq_none (not_lt.mp hlt), List.getElem?_singleton]
          simp [Ne.symm heq]
    · simp

/-- The indices of a set stand for its expressions, each once, whose first ones were indexed
before. -/
lemma setIndices_spec : ∀ (exprs : List IExpr) {keys : Keys} {indices : List ℕ} {before : List IExpr},
    keys.WellFormed → keys.Index indices before.eraseDups →
      (setIndices keys indices exprs).1.WellFormed ∧
        keys.groupingKeys <+: (setIndices keys indices exprs).1.groupingKeys ∧
        (setIndices keys indices exprs).1.Index (setIndices keys indices exprs).2
          (before ++ exprs).eraseDups
  | [], keys, indices, before, h, hindex => by
      rw [setIndices, List.append_nil]
      exact ⟨h, List.prefix_rfl, hindex⟩
  | e :: exprs, keys, indices, before, h, hindex => by
      obtain ⟨hwell, hkeys, he⟩ := h.indexOf e
      have hleading : keys.groupingKeys <+: (keys.indexOf e).1.groupingKeys := by
        rw [hkeys]
        split
        · exact List.prefix_rfl
        · exact List.prefix_append ..
      have hindex' := hindex.mono hleading
      have hmem := hindex'.mem_iff hwell.nodup he
      rw [List.mem_eraseDups] at hmem
      have hadded : (keys.indexOf e).1.Index
          (if (keys.indexOf e).2 ∈ indices then indices else indices ++ [(keys.indexOf e).2])
          (before ++ [e]).eraseDups := by
        rw [FirstOccurrences.eraseDups_concat]
        simp only [hmem]
        split
        · exact hindex'
        · exact List.rel_append hindex' (.cons he .nil)
      obtain ⟨hwell', hleading', hindex''⟩ := setIndices_spec exprs hwell hadded
      rw [setIndices]
      refine ⟨hwell', hleading.trans hleading', ?_⟩
      rw [List.append_assoc] at hindex''
      exact hindex''

/-- The indices of each set stand for its expressions, each once. -/
theorem deduplicateGroupingKeys_spec : ∀ (sets : List (List IExpr)) {keys : Keys},
    keys.WellFormed →
      (deduplicateGroupingKeys keys sets).1.WellFormed ∧
        keys.groupingKeys <+: (deduplicateGroupingKeys keys sets).1.groupingKeys ∧
        List.Forall₂ (fun indices set =>
          (deduplicateGroupingKeys keys sets).1.Index indices set.eraseDups)
          (deduplicateGroupingKeys keys sets).2 sets
  | [], keys, h => ⟨h, List.prefix_rfl, .nil⟩
  | set :: sets, keys, h => by
      have hnone : keys.Index [] ([] : List IExpr).eraseDups := .nil
      obtain ⟨hwell, hleading, hindex⟩ := setIndices_spec set h hnone
      obtain ⟨hwell', hleading', hindices⟩ := deduplicateGroupingKeys_spec sets hwell
      exact ⟨hwell', hleading.trans hleading', .cons (hindex.mono hleading') hindices⟩

/-- The keys are the expressions met, each once. -/
lemma groupingKeys_setIndices : ∀ (exprs : List IExpr) {keys : Keys} {indices : List ℕ}
    {before : List IExpr}, keys.WellFormed → keys.groupingKeys = before.eraseDups →
      (setIndices keys indices exprs).1.groupingKeys = (before ++ exprs).eraseDups
  | [], keys, indices, before, _, hkeys => by rw [setIndices, List.append_nil, hkeys]
  | e :: exprs, keys, indices, before, h, hkeys => by
      obtain ⟨hwell, hkeys', -⟩ := h.indexOf e
      have hadded : (keys.indexOf e).1.groupingKeys = (before ++ [e]).eraseDups := by
        rw [hkeys', hkeys, FirstOccurrences.eraseDups_concat]
        simp only [List.mem_eraseDups]
      rw [setIndices, groupingKeys_setIndices exprs hwell hadded, List.append_assoc]
      rfl

lemma groupingKeys_deduplicateGroupingKeys : ∀ (sets : List (List IExpr)) {keys : Keys}
    {before : List IExpr}, keys.WellFormed → keys.groupingKeys = before.eraseDups →
      (deduplicateGroupingKeys keys sets).1.groupingKeys = (before ++ sets.flatten).eraseDups
  | [], keys, before, _, hkeys => by
      rw [deduplicateGroupingKeys, List.flatten_nil, List.append_nil, hkeys]
  | set :: sets, keys, before, h, hkeys => by
      have hnone : keys.Index [] ([] : List IExpr).eraseDups := .nil
      have hwell := (setIndices_spec set h hnone).1
      have hset : (setIndices keys [] set).1.groupingKeys = (before ++ set).eraseDups :=
        groupingKeys_setIndices set h hkeys
      rw [deduplicateGroupingKeys, groupingKeys_deduplicateGroupingKeys sets hwell hset,
        List.append_assoc, List.flatten_cons]

/-! ### GROUP BY DISTINCT -/

/-- Indices of different keys are different. -/
lemma Keys.Index.nodup {keys : Keys} (hkeys : keys.groupingKeys.Nodup) {indices : List ℕ}
    {exprs : List IExpr} (h : keys.Index indices exprs) (hexprs : exprs.Nodup) :
    indices.Nodup := by
  induction h with
  | nil => exact .nil
  | cons hi hrest ih =>
    rw [List.nodup_cons] at hexprs
    rw [List.nodup_cons, Keys.Index.mem_iff hkeys hrest hi]
    exact ⟨hexprs.1, ih hexprs.2⟩

/-- The set of keys of sorted indices is that of the indices. -/
lemma Keys.toFinset_keysOf_sorted (keys : Keys) (indices : List ℕ) :
    (keys.keysOf (indices.insertionSort (· ≤ ·))).toFinset = (keys.keysOf indices).toFinset :=
  List.toFinset_eq_of_perm _ _ ((List.perm_insertionSort _ indices).filterMap _)

/-- The sets of indices after GROUP BY DISTINCT stand for the distinct sets of keys, each at its
first position. -/
theorem deduplicateGroupingSets_spec {keys : Keys} (hwell : keys.WellFormed)
    {indices : List (List ℕ)} {sets : List (List IExpr)}
    (h : List.Forall₂ (fun set exprs => keys.Index set exprs.eraseDups) indices sets) :
    (∀ set ∈ deduplicateGroupingSets indices,
      set.Nodup ∧ ∀ i ∈ set, i < keys.groupingKeys.length) ∧
    (deduplicateGroupingSets indices).map (fun set => (keys.keysOf set).toFinset) =
      (sets.map List.toFinset).eraseDups := by
  have hdedup : deduplicateGroupingSets indices =
      (indices.map fun set => set.insertionSort (· ≤ ·)).eraseDups := by
    rw [deduplicateGroupingSets, FirstOccurrences.keepUnseen_eq]
    simp
  have hset {set : List ℕ} (hmem : set ∈ indices) :
      ∃ exprs : List IExpr, keys.Index set exprs.eraseDups := by
    obtain ⟨exprs, -, hindex⟩ := Outcome.exists_of_forall₂ h hmem
    exact ⟨exprs, hindex⟩
  have hinj : Set.InjOn (fun set => (keys.keysOf set).toFinset)
      {set | set ∈ indices.map fun set => set.insertionSort (· ≤ ·)} := by
    rintro _ hsorted _ hsorted' hsame
    obtain ⟨set, hmem, rfl⟩ := List.mem_map.mp hsorted
    obtain ⟨set', hmem', rfl⟩ := List.mem_map.mp hsorted'
    obtain ⟨exprs, hindex⟩ := hset hmem
    obtain ⟨exprs', hindex'⟩ := hset hmem'
    dsimp only at hsame
    rw [keys.toFinset_keysOf_sorted, keys.toFinset_keysOf_sorted, hindex.keysOf_eq,
      hindex'.keysOf_eq] at hsame
    have hperm : set.Perm set' := by
      refine (List.perm_ext_iff_of_nodup
        (hindex.nodup hwell.nodup (FirstOccurrences.nodup_eraseDups exprs))
        (hindex'.nodup hwell.nodup (FirstOccurrences.nodup_eraseDups exprs'))).mpr fun i => ?_
      have hkey {set : List ℕ} {exprs : List IExpr} (h : keys.Index set exprs) (hi : i ∈ set)
          {set' : List ℕ} {exprs' : List IExpr} (h' : keys.Index set' exprs')
          (hsame : exprs.toFinset = exprs'.toFinset) : i ∈ set' := by
        have hget := List.getElem?_eq_getElem (h.lt_length hi)
        rw [h'.mem_iff hwell.nodup hget, ← List.mem_toFinset, ← hsame, List.mem_toFinset,
          ← h.mem_iff hwell.nodup hget]
        exact hi
      exact ⟨fun hi => hkey hindex hi hindex' hsame, fun hi => hkey hindex' hi hindex hsame.symm⟩
    exact List.Perm.eq_of_sortedLE List.sortedLE_insertionSort List.sortedLE_insertionSort
      (((List.perm_insertionSort _ _).trans hperm).trans (List.perm_insertionSort _ _).symm)
  constructor
  · intro set hmem
    rw [hdedup, List.mem_eraseDups] at hmem
    obtain ⟨original, horiginal, rfl⟩ := List.mem_map.mp hmem
    obtain ⟨exprs, hindex⟩ := hset horiginal
    refine ⟨(List.perm_insertionSort _ original).nodup_iff.mpr
      (hindex.nodup hwell.nodup (FirstOccurrences.nodup_eraseDups exprs)), fun i hi => ?_⟩
    exact hindex.lt_length ((List.mem_insertionSort _).mp hi)
  · rw [hdedup, ← FirstOccurrences.eraseDups_map hinj, List.map_map]
    congr 1
    rw [← List.forall₂_eq_eq_eq, List.forall₂_map_left_iff, List.forall₂_map_right_iff]
    refine h.imp fun set exprs hindex => ?_
    rw [Function.comp_apply, keys.toFinset_keysOf_sorted, hindex.keysOf_eq]
    ext e
    rw [List.mem_toFinset, List.mem_toFinset, List.mem_eraseDups]

end Verax.Grouping.GroupByPlanner
