import Mathlib.Data.List.Forall2
import Mathlib.Data.List.Sort

/-!
# Ranking rows

The numbers `row_number`, `rank` and `dense_rank` give to the rows of each partition, in an
arrangement that is in order within each partition, ties standing in any order.

* `withEarlier`: each row with the rows of its partition before it, which fix its number.
* `RankFunction.value_le`: a number is at most the position in the partition.
* `le_countP_of_lt_value`: above a row of a number past `cap` stand `cap` rows of smaller numbers.
* `exists_sorted_take`: rows that have `cap` others above them are not among the first `cap` rows.
-/

namespace Verax.Lib.Rankings

variable {ρ σ : Type*}

/-- The ranking functions. -/
inductive RankFunction
  | rowNumber | rank | denseRank
  deriving DecidableEq

/-- How often, from one row to the next, a new group of peers begins. -/
def steps (le : ρ → ρ → Bool) : List ρ → ℕ
  | a :: b :: rest => (if le b a then 0 else 1) + steps le (b :: rest)
  | _ => 0

/-- The number of a row, given the rows of its partition before it. -/
def RankFunction.value (le : ρ → ρ → Bool) : RankFunction → List ρ → ρ → ℕ
  | rowNumber, earlier, _ => earlier.length + 1
  | rank, earlier, r => earlier.countP (fun s => !le r s) + 1
  | denseRank, earlier, r => steps le (earlier ++ [r]) + 1

/-! ### The numbers -/

lemma steps_le (le : ρ → ρ → Bool) : ∀ l : List ρ, steps le l ≤ l.length - 1
  | [] => by simp [steps]
  | [_] => by simp [steps]
  | a :: b :: rest => by
    have h := steps_le le (b :: rest)
    simp only [steps, List.length_cons] at h ⊢
    split <;> omega

lemma steps_of_peers {le : ρ → ρ → Bool} (h : ∀ s t, le s t = true) :
    ∀ l : List ρ, steps le l = 0
  | [] => rfl
  | [_] => rfl
  | a :: b :: rest => by rw [steps, if_pos (h b a), steps_of_peers h (b :: rest)]

lemma steps_congr {R : ρ → σ → Prop} {le : ρ → ρ → Bool} {le' : σ → σ → Bool}
    (hle : ∀ s s' t t', R s s' → R t t' → le s t = le' s' t') {l : List ρ} {l' : List σ}
    (h : List.Forall₂ R l l') : steps le l = steps le' l' := by
  induction h with
  | nil => rfl
  | cons ha h ih =>
    cases h with
    | nil => rfl
    | cons hb h => simp only [steps, hle _ _ _ _ hb ha, ih]

/-- A number is at most the position of the row. -/
theorem RankFunction.value_le (fn : RankFunction) (le : ρ → ρ → Bool) (earlier : List ρ) (r : ρ) :
    fn.value le earlier r ≤ earlier.length + 1 := by
  cases fn with
  | rowNumber => exact le_rfl
  | rank => exact Nat.succ_le_succ List.countP_le_length
  | denseRank =>
    have h := steps_le le (earlier ++ [r])
    rw [List.length_append, List.length_singleton] at h
    simp only [RankFunction.value]
    omega

lemma RankFunction.one_le_value (fn : RankFunction) (le : ρ → ρ → Bool) (earlier : List ρ) (r : ρ) :
    1 ≤ fn.value le earlier r := by
  cases fn <;> exact Nat.le_add_left 1 _

/-- Where all rows are peers, all rows rank first. -/
lemma RankFunction.value_of_peers {fn : RankFunction} {le : ρ → ρ → Bool} (hfn : fn ≠ .rowNumber)
    (h : ∀ s t, le s t = true) (earlier : List ρ) (r : ρ) : fn.value le earlier r = 1 := by
  cases fn with
  | rowNumber => exact absurd rfl hfn
  | rank => simp [RankFunction.value, h]
  | denseRank => rw [RankFunction.value, steps_of_peers h]

/-- The number depends on how the rows compare. -/
lemma RankFunction.value_congr (fn : RankFunction) {R : ρ → σ → Prop} {le : ρ → ρ → Bool}
    {le' : σ → σ → Bool} (hle : ∀ s s' t t', R s s' → R t t' → le s t = le' s' t')
    {earlier : List ρ} {earlier' : List σ} (h : List.Forall₂ R earlier earlier') {r : ρ} {r' : σ}
    (hr : R r r') : fn.value le earlier r = fn.value le' earlier' r' := by
  cases fn with
  | rowNumber => simp only [RankFunction.value, h.length_eq]
  | rank =>
    simp only [RankFunction.value, Nat.add_right_cancel_iff]
    induction h with
    | nil => rfl
    | cons hs _ ih => simp only [List.countP_cons, ih, hle _ _ _ _ hr hs]
  | denseRank =>
    simp only [RankFunction.value]
    rw [steps_congr hle (List.rel_append h (.cons hr .nil))]

/-! ### Rows with the earlier rows of their partitions -/

/-- Each row with the rows of its partition before it, after rows that stand before all of them. -/
def withEarlier (same : ρ → ρ → Bool) : List ρ → List ρ → List (List ρ × ρ)
  | _, [] => []
  | before, r :: rest => (before.filter (same r), r) :: withEarlier same (before ++ [r]) rest

variable {same : ρ → ρ → Bool}

lemma map_snd_withEarlier : ∀ before l : List ρ, (withEarlier same before l).map Prod.snd = l
  | _, [] => rfl
  | before, r :: rest => by rw [withEarlier, List.map_cons, map_snd_withEarlier]

lemma mem_of_mem_withEarlier {before l : List ρ} {x : List ρ × ρ}
    (hx : x ∈ withEarlier same before l) : x.2 ∈ l := by
  have hmem := List.mem_map_of_mem (f := Prod.snd) hx
  rwa [map_snd_withEarlier] at hmem

lemma withEarlier_append : ∀ before l k : List ρ,
    withEarlier same before (l ++ k) =
      withEarlier same before l ++ withEarlier same (before ++ l) k
  | before, [], k => by rw [List.nil_append, List.append_nil, withEarlier, List.nil_append]
  | before, r :: rest, k => by
    rw [List.cons_append, withEarlier, withEarlier_append, withEarlier, List.cons_append,
      List.append_assoc, List.singleton_append]

/-- Rows that correspond, with corresponding partitions, have corresponding earlier rows. -/
lemma forall₂_withEarlier {R : ρ → σ → Prop} {same' : σ → σ → Bool}
    (hsame : ∀ s s' t t', R s s' → R t t' → same s t = same' s' t') :
    ∀ {before l : List ρ} {before' l' : List σ}, List.Forall₂ R before before' →
      List.Forall₂ R l l' → List.Forall₂
        (fun x x' => List.Forall₂ (fun s s' => same x.2 s = true ∧ R s s') x.1 x'.1 ∧ R x.2 x'.2)
        (withEarlier same before l) (withEarlier same' before' l')
  | _, _, _, _, _, .nil => .nil
  | _, _, _, _, hbefore, .cons hr hrest => by
    refine .cons ⟨(List.forall₂_and_left _ _).mpr ⟨fun s hs => (List.mem_filter.mp hs).2, ?_⟩, hr⟩
      (forall₂_withEarlier hsame (List.rel_append hbefore (.cons hr .nil)) hrest)
    exact List.rel_filter (fun _ _ hs => by simp only [hsame _ _ _ _ hr hs]) hbefore

/-- What an equivalence `same` is. -/
structure Partitions (same : ρ → ρ → Bool) : Prop where
  refl : ∀ r, same r r = true
  symm : ∀ r s, same r s = true → same s r = true
  trans : ∀ r s t, same r s = true → same s t = true → same r t = true

lemma Partitions.congr (h : Partitions same) {r s : ρ} (hrs : same r s = true) (t : ρ) :
    same r t = same s t := by
  rw [Bool.eq_iff_iff]
  exact ⟨h.trans s r t (h.symm r s hrs), h.trans r s t hrs⟩

/-- The rows of one partition are numbered as if they were alone. -/
lemma filter_withEarlier (h : Partitions same) (r : ρ) : ∀ before l : List ρ,
    (withEarlier same before l).filter (fun x => same r x.2) =
      withEarlier (fun _ _ => true) (before.filter (same r)) (l.filter (same r))
  | _, [] => rfl
  | before, s :: rest => by
    have ih := filter_withEarlier h r (before ++ [s]) rest
    rw [List.filter_append] at ih
    by_cases hs : same r s = true
    · have hfilter : before.filter (same s) = before.filter (same r) :=
        List.filter_congr fun t _ => (h.congr hs t).symm
      rw [List.filter_cons_of_pos hs, List.filter_nil] at ih
      rw [withEarlier, List.filter_cons_of_pos (by exact hs), List.filter_cons_of_pos hs, withEarlier,
        ih, hfilter, List.filter_eq_self.mpr fun _ _ => rfl]
    · rw [List.filter_cons_of_neg hs, List.filter_nil, List.append_nil] at ih
      rw [withEarlier, List.filter_cons_of_neg (by exact hs), List.filter_cons_of_neg hs, ih]

/-- Among rows of one partition, the earlier rows are those before. -/
lemma exists_of_mem_withEarlier : ∀ {before l : List ρ} {x : List ρ × ρ},
    x ∈ withEarlier (fun _ _ => true) before l → ∃ p q, l = p ++ x.2 :: q ∧ x.1 = before ++ p
  | _, [], _, hx => by cases hx
  | before, r :: rest, x, hx => by
    rcases List.mem_cons.mp hx with rfl | hx
    · refine ⟨[], rest, rfl, ?_⟩
      rw [List.append_nil]
      exact List.filter_eq_self.mpr fun _ _ => rfl
    · obtain ⟨p, q, hl, hearlier⟩ := exists_of_mem_withEarlier hx
      refine ⟨r :: p, q, by rw [hl, List.cons_append], ?_⟩
      rw [hearlier, List.append_assoc, List.singleton_append]

/-- Of rows of one partition, only as many stand early as a bound. -/
lemma length_filter_withEarlier (cap : ℕ) : ∀ before l : List ρ,
    ((withEarlier (fun _ _ => true) before l).filter fun x => x.1.length + 1 ≤ cap).length ≤
      cap - before.length
  | _, [] => Nat.zero_le _
  | before, r :: rest => by
    have ih := length_filter_withEarlier cap (before ++ [r]) rest
    rw [List.length_append, List.length_singleton] at ih
    rw [withEarlier, List.filter_cons, List.filter_eq_self.mpr fun _ _ => rfl]
    by_cases h : before.length + 1 ≤ cap
    · rw [if_pos (decide_eq_true h), List.length_cons]
      omega
    · rw [if_neg (by simpa using h)]
      omega

/-- In order within each partition. -/
def Arranged (same le : ρ → ρ → Bool) (l : List ρ) : Prop :=
  l.Pairwise fun s t => same s t = true → le s t = true

/-- Above a row of a number past a cap stand as many rows as the cap, of numbers up to it. -/
theorem le_countP_of_lt_value (h : Partitions same) {le : ρ → ρ → Bool} {l : List ρ}
    (hl : Arranged same le l) (fn : RankFunction) {cap : ℕ} {x : List ρ × ρ}
    (hx : x ∈ withEarlier same [] l) (hcap : cap < fn.value le x.1 x.2) :
    cap ≤ ((withEarlier same [] l).filter fun y => fn.value le y.1 y.2 ≤ cap).countP
      fun y => le y.2 x.2 := by
  have hfilter := filter_withEarlier h x.2 [] l
  have hmem : x ∈ withEarlier (fun _ _ => true) [] (l.filter (same x.2)) := by
    rw [List.filter_nil] at hfilter
    rw [← hfilter]
    exact List.mem_filter.mpr ⟨hx, h.refl x.2⟩
  obtain ⟨p, q, hpartition, hearlier⟩ := exists_of_mem_withEarlier hmem
  rw [List.nil_append] at hearlier
  have hlength : cap ≤ p.length := by
    have := fn.value_le le x.1 x.2
    rw [hearlier] at this hcap
    omega
  -- The first rows of the partition, as many as the cap, are not after the row.
  have hbefore : ∀ s ∈ p, le s x.2 = true := by
    have hpair : (p ++ x.2 :: q).Pairwise fun s t => same s t = true → le s t = true := by
      rw [← hpartition]
      exact hl.sublist List.filter_sublist
    intro s hs
    refine (List.pairwise_append.mp hpair).2.2 s hs x.2 List.mem_cons_self ?_
    have : s ∈ l.filter (same x.2) := by
      rw [hpartition]
      exact List.mem_append_left _ hs
    exact h.symm _ _ (List.mem_filter.mp this).2
  have hfirst : ∀ y ∈ withEarlier (fun _ _ => true) [] (p.take cap),
      (le y.2 x.2 && decide (fn.value le y.1 y.2 ≤ cap)) = true := by
    intro y hy
    obtain ⟨p', q', htake, hy'⟩ := exists_of_mem_withEarlier hy
    rw [List.nil_append] at hy'
    have hlt : p'.length + 1 ≤ cap := by
      have := congrArg List.length htake
      rw [List.length_take, List.length_append, List.length_cons] at this
      omega
    rw [Bool.and_eq_true, decide_eq_true_eq]
    refine ⟨hbefore _ (List.mem_of_mem_take (mem_of_mem_withEarlier hy)), ?_⟩
    have := fn.value_le le y.1 y.2
    rw [hy'] at this ⊢
    omega
  calc cap = (withEarlier (fun _ _ => true) [] (p.take cap)).countP
        fun y => le y.2 x.2 && decide (fn.value le y.1 y.2 ≤ cap) := by
        rw [List.countP_eq_length.mpr hfirst, ← List.length_map, map_snd_withEarlier,
          List.length_take, Nat.min_eq_left hlength]
    _ ≤ ((withEarlier same [] l).filter fun y => same x.2 y.2).countP
        fun y => le y.2 x.2 && decide (fn.value le y.1 y.2 ≤ cap) := by
        rw [hfilter, List.filter_nil, hpartition, ← List.take_append_drop cap p, List.append_assoc,
          withEarlier_append, List.take_append_drop]
        exact (List.sublist_append_left _ _).countP_le
    _ ≤ (withEarlier same [] l).countP
        fun y => le y.2 x.2 && decide (fn.value le y.1 y.2 ≤ cap) := List.filter_sublist.countP_le
    _ = _ := by rw [List.countP_filter]

/-! ### Arranging rows -/

variable {le : ρ → ρ → Bool}

/-- Rows can be arranged. -/
lemma exists_arranged (same : ρ → ρ → Bool) (htotal : ∀ r s, le r s || le s r)
    (htrans : ∀ r s t, le r s → le s t → le r t) (l : List ρ) :
    ∃ k : List ρ, k.Perm l ∧ Arranged same le k := by
  refine ⟨l.mergeSort le, List.mergeSort_perm l le, ?_⟩
  have hsorted := List.pairwise_mergeSort htrans htotal l
  exact hsorted.imp (S := fun s t => same s t = true → le s t = true) fun h _ => h

/-- Rows of other partitions can stand behind. -/
lemma Arranged.append {l k : List ρ} (hl : Arranged same le l) (hk : Arranged same le k)
    (hother : ∀ r ∈ l, ∀ s ∈ k, same r s = false) : Arranged same le (l ++ k) :=
  List.pairwise_append.mpr ⟨hl, hk, fun r hr s hs h => by simp [hother r hr s hs] at h⟩

/-- In sorted rows, a row that has as many others above it as a cap comes after the first ones. -/
lemma le_of_mem_take (htrans : ∀ r s t, le r s → le s t → le r t) {sorted : List ρ} {cap : ℕ}
    (hsorted : sorted.Pairwise fun r s => le r s = true) {r x : ρ}
    (habove : cap ≤ sorted.countP fun y => le y x) (hr : r ∈ sorted.take cap) : le r x = true := by
  by_contra hne
  obtain ⟨p, q, htake⟩ := List.append_of_mem hr
  have hlength : p.length < cap := by
    have := congrArg List.length htake
    rw [List.length_take, List.length_append, List.length_cons] at this
    omega
  have hall : sorted = p ++ (r :: (q ++ sorted.drop cap)) := by
    rw [← List.cons_append, ← List.append_assoc, ← htake, List.take_append_drop]
  rw [hall] at hsorted habove
  have hbelow := (List.pairwise_cons.mp (List.pairwise_append.mp hsorted).2.1).1
  have hnone : (r :: (q ++ sorted.drop cap)).countP (fun y => le y x) = 0 := by
    rw [List.countP_eq_zero]
    intro y hy hle
    rcases List.mem_cons.mp hy with rfl | hy
    · exact hne hle
    · exact hne (htrans r y x (hbelow y hy) hle)
  rw [List.countP_append, hnone] at habove
  have := List.countP_le_length (p := fun y => le y x) (l := p)
  omega

/-- Rows that have as many others above them as a cap need not be among the first rows. -/
theorem exists_sorted_take (htotal : ∀ r s, le r s || le s r)
    (htrans : ∀ r s t, le r s → le s t → le r t) {out rest sorted : List ρ} {cap : ℕ}
    (habove : ∀ x ∈ rest, cap ≤ out.countP fun y => le y x) (hperm : sorted.Perm out)
    (hsorted : sorted.Pairwise fun r s => le r s = true) :
    ∃ all : List ρ, all.Perm (out ++ rest) ∧ all.Pairwise (fun r s => le r s = true) ∧
      all.take cap = sorted.take cap := by
  have hbehind := List.mergeSort_perm (rest ++ sorted.drop cap) le
  refine ⟨sorted.take cap ++ (rest ++ sorted.drop cap).mergeSort le, ?_, ?_, ?_⟩
  · have hall : (sorted.take cap ++ (sorted.drop cap ++ rest)).Perm (out ++ rest) := by
      rw [← List.append_assoc, List.take_append_drop]
      exact hperm.append_right _
    exact ((hbehind.trans List.perm_append_comm).append_left _).trans hall
  · refine List.pairwise_append.mpr ⟨hsorted.sublist (List.take_sublist _ _),
      List.pairwise_mergeSort htrans htotal _, ?_⟩
    intro r hr s hs
    rcases List.mem_append.mp (hbehind.mem_iff.mp hs) with hs | hs
    · have := habove s hs
      rw [← hperm.countP_eq] at this
      exact le_of_mem_take htrans hsorted this hr
    · rw [← List.take_append_drop cap sorted] at hsorted
      exact (List.pairwise_append.mp hsorted).2.2 r hr s hs
  · by_cases hlength : cap ≤ sorted.length
    · rw [List.take_append_of_le_length (by rw [List.length_take]; omega), List.take_take,
        Nat.min_self]
    · -- Too few rows: none has that many above it.
      have hrest : rest = [] := by
        refine List.eq_nil_iff_forall_not_mem.mpr fun x hx => ?_
        have := (habove x hx).trans List.countP_le_length
        rw [hperm.length_eq] at hlength
        omega
      rw [hrest, List.drop_eq_nil_of_le (by omega), List.nil_append, List.mergeSort_nil,
        List.append_nil, List.take_take, Nat.min_self]

end Verax.Lib.Rankings
