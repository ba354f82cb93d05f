import Mathlib.Order.UpperLower.CompleteLattice
import Mathlib.Order.UpperLower.Principal
import Mathlib.Data.List.Sort

/-!
# Sets as sorted lists of intervals

A set of points of a line is kept as a list of half-open intervals between *cuts*. A point is known
by the cuts at or below it, a lower set, so that a cut can lie just below a value or just above it
and one order speaks of open and of closed bounds.

* `Covers`: the points a list holds; `Separated`: sorted, with room between neighbours.
* `covers_meet`, `covers_gaps`, `covers_coalesce`: intersection, complement and normalization hold
  the points they should; `separated_meet`, `separated_gaps`, `separated_coalesce`.
* `eq_singleton_of_covers`: a list that holds all of an interval is that interval.
-/

namespace Verax.Lib.Intervals

variable {γ : Type} [LinearOrder γ]

/-- The points at or above one cut and below another. -/
structure Segment (γ : Type) where
  low : γ
  high : γ

/-- A point lies in an interval. -/
def Segment.Holds (i : Segment γ) (U : LowerSet γ) : Prop := i.low ∈ U ∧ i.high ∉ U

/-- A point lies in one of the intervals of a list. -/
def Covers (l : List (Segment γ)) (U : LowerSet γ) : Prop := ∃ i ∈ l, i.Holds U

/-- Non-empty intervals, in order and apart. -/
structure Separated (l : List (Segment γ)) : Prop where
  nonempty : ∀ i ∈ l, i.low < i.high
  apart : l.Pairwise fun i j => i.high < j.low

/-- All intervals lie between two cuts. -/
def Within (a b : γ) (l : List (Segment γ)) : Prop := ∀ i ∈ l, a ≤ i.low ∧ i.high ≤ b

/-! ### First facts -/

lemma Segment.Holds.lt {i : Segment γ} {U : LowerSet γ} (h : i.Holds U) : i.low < i.high := by
  by_contra hle
  exact h.2 (U.lower (not_lt.mp hle) h.1)

@[simp] lemma not_covers_nil (U : LowerSet γ) : ¬ Covers [] U := by
  rintro ⟨i, hi, -⟩
  cases hi

@[simp] lemma covers_cons {i : Segment γ} {l : List (Segment γ)} {U : LowerSet γ} :
    Covers (i :: l) U ↔ i.Holds U ∨ Covers l U := by
  simp [Covers]

lemma covers_append {l m : List (Segment γ)} {U : LowerSet γ} :
    Covers (l ++ m) U ↔ Covers l U ∨ Covers m U := by
  simp [Covers, or_and_right, exists_or]

namespace Separated

variable {i : Segment γ} {l : List (Segment γ)}

lemma nil : Separated ([] : List (Segment γ)) := ⟨nofun, .nil⟩

lemma singleton (h : i.low < i.high) : Separated [i] :=
  ⟨fun _ hj => List.mem_singleton.mp hj ▸ h, List.pairwise_singleton _ _⟩

lemma tail (h : Separated (i :: l)) : Separated l :=
  ⟨fun j hj => h.nonempty j (List.mem_cons_of_mem _ hj), (List.pairwise_cons.mp h.apart).2⟩

lemma head_lt (h : Separated (i :: l)) : i.low < i.high := h.nonempty i List.mem_cons_self

lemma lt_of_mem (h : Separated (i :: l)) : ∀ j ∈ l, i.high < j.low :=
  (List.pairwise_cons.mp h.apart).1

lemma cons (hi : i.low < i.high) (hl : ∀ j ∈ l, i.high < j.low) (h : Separated l) :
    Separated (i :: l) := by
  refine ⟨fun j hj => ?_, List.pairwise_cons.mpr ⟨hl, h.apart⟩⟩
  rcases List.mem_cons.mp hj with rfl | hj
  · exact hi
  · exact h.nonempty j hj

end Separated

/-- A separated list has a point in its first interval. -/
lemma Separated.exists_covers {l : List (Segment γ)} (h : Separated l) {i : Segment γ}
    (hi : i ∈ l) : Covers l (LowerSet.Iic i.low) :=
  ⟨i, hi, LowerSet.mem_Iic_iff.mpr le_rfl, fun hmem =>
    absurd (LowerSet.mem_Iic_iff.mp hmem) (not_le.mpr (h.nonempty i hi))⟩

/-! ### Intersection -/

/-- The part two intervals share, if there is one. -/
def Segment.meet (i j : Segment γ) : Option (Segment γ) :=
  if max i.low j.low < min i.high j.high then some ⟨max i.low j.low, min i.high j.high⟩ else none

/-- One round of `meet`: what `i` shares with the intervals of a list, `rest` taking over where they
reach past `i`. -/
def meetFrom (i : Segment γ) (rest : List (Segment γ) → List (Segment γ)) :
    List (Segment γ) → List (Segment γ)
  | [] => []
  | j :: js =>
      (i.meet j).toList ++ if i.high ≤ j.high then rest (j :: js) else meetFrom i rest js

/-- The intersection of two lists, by two pointers. -/
def meet : List (Segment γ) → List (Segment γ) → List (Segment γ)
  | [] => fun _ => []
  | i :: is => meetFrom i (meet is)

lemma mem_toList_meet {i j t : Segment γ} (h : t ∈ (i.meet j).toList) :
    t = ⟨max i.low j.low, min i.high j.high⟩ ∧ t.low < t.high := by
  unfold Segment.meet at h
  split at h
  case isTrue hlt =>
    rw [Option.toList_some, List.mem_singleton] at h
    exact ⟨h, h ▸ hlt⟩
  case isFalse => simp at h

lemma covers_toList_meet {i j : Segment γ} {U : LowerSet γ} :
    Covers (i.meet j).toList U ↔ i.Holds U ∧ j.Holds U := by
  constructor
  · rintro ⟨t, ht, hlow, hhigh⟩
    obtain ⟨rfl, -⟩ := mem_toList_meet ht
    refine ⟨⟨U.lower (le_max_left _ _) hlow, fun h => ?_⟩, ⟨U.lower (le_max_right _ _) hlow,
      fun h => ?_⟩⟩
    · exact hhigh (U.lower (min_le_left _ _) h)
    · exact hhigh (U.lower (min_le_right _ _) h)
  · rintro ⟨hi, hj⟩
    have hholds : Segment.Holds ⟨max i.low j.low, min i.high j.high⟩ U := by
      constructor
      · exact max_rec' (· ∈ U) hi.1 hj.1
      · exact min_rec' (· ∉ U) hi.2 hj.2
    refine ⟨_, ?_, hholds⟩
    rw [Segment.meet, if_pos hholds.lt]
    exact List.mem_singleton_self _

/-- Every interval of an intersection is one of two intervals met. -/
lemma mem_meet {t : Segment γ} : {l m : List (Segment γ)} → t ∈ meet l m →
    ∃ i ∈ l, ∃ j ∈ m, t = ⟨max i.low j.low, min i.high j.high⟩ ∧ t.low < t.high := by
  intro l
  induction l with
  | nil => intro m h; cases h
  | cons i is ih =>
      intro m
      induction m with
      | nil => intro h; cases h
      | cons j js ihm =>
          intro h
          rcases List.mem_append.mp h with h | h
          · exact ⟨i, List.mem_cons_self, j, List.mem_cons_self, mem_toList_meet h⟩
          · split at h
            · obtain ⟨i', hi', j', hj', ht⟩ := ih h
              exact ⟨i', List.mem_cons_of_mem _ hi', j', hj', ht⟩
            · obtain ⟨i', hi', j', hj', ht⟩ := ihm h
              exact ⟨i', hi', j', List.mem_cons_of_mem _ hj', ht⟩

/-- The intersection holds the points of both lists. -/
theorem covers_meet {U : LowerSet γ} : {l m : List (Segment γ)} → Separated l → Separated m →
    (Covers (meet l m) U ↔ Covers l U ∧ Covers m U) := by
  intro l
  induction l with
  | nil => intro m _ _; simp [meet]
  | cons i is ih =>
      intro m hl
      induction m with
      | nil => intro _; simp [meet, meetFrom]
      | cons j js ihm =>
          intro hm
          have hunfold : meet (i :: is) (j :: js) = (i.meet j).toList ++
              if i.high ≤ j.high then meet is (j :: js) else meet (i :: is) js := rfl
          rw [hunfold, covers_append, covers_toList_meet]
          split
          case isTrue hle =>
            -- No later interval of `m` reaches back to `i`.
            have hskip : i.Holds U → ¬ Covers js U := by
              rintro hi ⟨k, hk, hlow, -⟩
              exact hi.2 (U.lower (hle.trans (hm.lt_of_mem k hk).le) hlow)
            rw [ih hl.tail hm, covers_cons, covers_cons]
            tauto
          case isFalse hlt =>
            have hskip : j.Holds U → ¬ Covers is U := by
              rintro hj ⟨k, hk, hlow, -⟩
              exact hj.2 (U.lower ((not_le.mp hlt).le.trans (hl.lt_of_mem k hk).le) hlow)
            rw [ihm hm.tail, covers_cons, covers_cons]
            tauto

theorem separated_meet : {l m : List (Segment γ)} → Separated l → Separated m →
    Separated (meet l m) := by
  intro l
  induction l with
  | nil => intro m _ _; exact .nil
  | cons i is ih =>
      intro m hl
      induction m with
      | nil => intro _; exact .nil
      | cons j js ihm =>
          intro hm
          have hunfold : meet (i :: is) (j :: js) = (i.meet j).toList ++
              if i.high ≤ j.high then meet is (j :: js) else meet (i :: is) js := rfl
          rw [hunfold]
          have hrest : Separated (if i.high ≤ j.high then meet is (j :: js)
              else meet (i :: is) js) := by
            split
            · exact ih hl.tail hm
            · exact ihm hm.tail
          cases hmeet : i.meet j with
          | none => simpa using hrest
          | some t =>
              obtain ⟨rfl, ht⟩ := mem_toList_meet (i := i) (j := j) (t := t) (by simp [hmeet])
              refine .cons ht (fun k hk => ?_) hrest
              split at hk
              case isTrue hle =>
                obtain ⟨i', hi', j', -, rfl, -⟩ := mem_meet hk
                calc min i.high j.high ≤ i.high := min_le_left _ _
                  _ < i'.low := hl.lt_of_mem i' hi'
                  _ ≤ max i'.low j'.low := le_max_left _ _
              case isFalse =>
                obtain ⟨i', -, j', hj', rfl, -⟩ := mem_meet hk
                calc min i.high j.high ≤ j.high := min_le_right _ _
                  _ < j'.low := hm.lt_of_mem j' hj'
                  _ ≤ max i'.low j'.low := le_max_right _ _

lemma within_meet {a b : γ} {l m : List (Segment γ)} (h : Within a b l ∨ Within a b m) :
    Within a b (meet l m) := by
  intro t ht
  obtain ⟨i, hi, j, hj, rfl, -⟩ := mem_meet ht
  rcases h with h | h
  · exact ⟨(h i hi).1.trans (le_max_left _ _), (min_le_left _ _).trans (h i hi).2⟩
  · exact ⟨(h j hj).1.trans (le_max_right _ _), (min_le_right _ _).trans (h j hj).2⟩

/-! ### Normalization -/

/-- Joins an interval with those after it that start no later than it ends. -/
def coalesce : Segment γ → List (Segment γ) → List (Segment γ)
  | i, [] => [i]
  | i, j :: js =>
      if max i.low j.low ≤ min i.high j.high then
        coalesce ⟨min i.low j.low, max i.high j.high⟩ js
      else i :: coalesce j js

/-- Joining two intervals that meet or touch keeps their points. -/
lemma holds_join {i j : Segment γ} (h : max i.low j.low ≤ min i.high j.high) (U : LowerSet γ) :
    Segment.Holds ⟨min i.low j.low, max i.high j.high⟩ U ↔ i.Holds U ∨ j.Holds U := by
  have hji : j.low ≤ i.high := (le_max_right _ _).trans (h.trans (min_le_left _ _))
  have hij : i.low ≤ j.high := (le_max_left _ _).trans (h.trans (min_le_right _ _))
  have hlow : min i.low j.low ∈ U ↔ i.low ∈ U ∨ j.low ∈ U := by
    constructor
    · exact fun hmem => min_rec' (fun c => c ∈ U → i.low ∈ U ∨ j.low ∈ U) .inl .inr hmem
    · rintro (hmem | hmem)
      · exact U.lower (min_le_left _ _) hmem
      · exact U.lower (min_le_right _ _) hmem
  have hhigh : max i.high j.high ∈ U ↔ i.high ∈ U ∧ j.high ∈ U := by
    constructor
    · exact fun hmem => ⟨U.lower (le_max_left _ _) hmem, U.lower (le_max_right _ _) hmem⟩
    · exact fun ⟨hi, hj⟩ => max_rec' (· ∈ U) hi hj
  have himp : i.high ∈ U → j.low ∈ U := fun hmem => U.lower hji hmem
  have hjmp : j.high ∈ U → i.low ∈ U := fun hmem => U.lower hij hmem
  unfold Segment.Holds
  rw [hlow, hhigh]
  tauto

/-- Normalization keeps the points. -/
theorem covers_coalesce {U : LowerSet γ} : (l : List (Segment γ)) → (i : Segment γ) →
    (Covers (coalesce i l) U ↔ Covers (i :: l) U)
  | [], i => Iff.rfl
  | j :: js, i => by
      rw [coalesce]
      split
      case isTrue h =>
        rw [covers_coalesce js, covers_cons, holds_join h, covers_cons, covers_cons, or_assoc]
      case isFalse => rw [covers_cons, covers_coalesce js, covers_cons (i := i)]

/-- The joined intervals start no earlier than the first of them. -/
lemma low_le_of_mem_coalesce : {l : List (Segment γ)} → {i : Segment γ} →
    (i :: l).Pairwise (fun i j => i.low ≤ j.low) → ∀ t ∈ coalesce i l, i.low ≤ t.low
  | [], i, _, t, ht => by rw [List.mem_singleton.mp ht]
  | j :: js, i, h, t, ht => by
      obtain ⟨hi, hjs⟩ := List.pairwise_cons.mp h
      have hij : i.low ≤ j.low := hi j List.mem_cons_self
      rw [coalesce] at ht
      split at ht
      case isTrue =>
        rw [min_eq_left hij] at ht
        refine low_le_of_mem_coalesce (i := ⟨i.low, max i.high j.high⟩)
          (List.pairwise_cons.mpr ⟨?_, ?_⟩) t ht
        · exact fun k hk => hi k (List.mem_cons_of_mem _ hk)
        · exact (List.pairwise_cons.mp hjs).2
      case isFalse =>
        rcases List.mem_cons.mp ht with rfl | ht
        · exact le_rfl
        · exact hij.trans (low_le_of_mem_coalesce hjs t ht)

/-- Normalization of intervals in the order of their lower ends separates them. -/
theorem separated_coalesce : {l : List (Segment γ)} → {i : Segment γ} →
    (i :: l).Pairwise (fun i j => i.low ≤ j.low) → (∀ t ∈ i :: l, t.low < t.high) →
    Separated (coalesce i l)
  | [], i, _, hne => .singleton (hne i List.mem_cons_self)
  | j :: js, i, h, hne => by
      obtain ⟨hi, hjs⟩ := List.pairwise_cons.mp h
      have hij : i.low ≤ j.low := hi j List.mem_cons_self
      have hlt : i.low < i.high := hne i List.mem_cons_self
      rw [coalesce]
      split
      case isTrue hmeet =>
        rw [min_eq_left hij]
        refine separated_coalesce (List.pairwise_cons.mpr ⟨?_, ?_⟩) fun t ht => ?_
        · exact fun k hk => hi k (List.mem_cons_of_mem _ hk)
        · exact (List.pairwise_cons.mp hjs).2
        · rcases List.mem_cons.mp ht with rfl | ht
          · exact hlt.trans_le (le_max_left _ _)
          · exact hne t (List.mem_cons_of_mem _ (List.mem_cons_of_mem _ ht))
      case isFalse hapart =>
        have hjne := fun t ht => hne t (List.mem_cons_of_mem i ht)
        refine .cons hlt (fun t ht => ?_) (separated_coalesce hjs hjne)
        have hgap : i.high < j.low := by
          by_contra hle
          refine hapart ?_
          rw [max_eq_right hij]
          exact le_min (not_lt.mp hle) (hjne j List.mem_cons_self).le
        exact hgap.trans_le (low_le_of_mem_coalesce hjs t ht)

lemma within_coalesce {a b : γ} {l : List (Segment γ)} {i : Segment γ}
    (h : Within a b (i :: l)) : Within a b (coalesce i l) := by
  induction l generalizing i with
  | nil => exact h
  | cons j js ih =>
      have hi := h i List.mem_cons_self
      have hj := h j (List.mem_cons_of_mem _ List.mem_cons_self)
      rw [coalesce]
      split
      case isTrue =>
        refine ih fun t ht => ?_
        rcases List.mem_cons.mp ht with rfl | ht
        · exact ⟨le_min hi.1 hj.1, max_le hi.2 hj.2⟩
        · exact h t (List.mem_cons_of_mem _ (List.mem_cons_of_mem _ ht))
      case isFalse =>
        intro t ht
        rcases List.mem_cons.mp ht with rfl | ht
        · exact hi
        · exact ih (fun k hk => h k (List.mem_cons_of_mem _ hk)) t ht

/-! ### Complement -/

section

variable [BoundedOrder γ]

/-- What lies at or above `a` and between or after the intervals of a list. -/
def gaps : γ → List (Segment γ) → List (Segment γ)
  | a, [] => [⟨a, ⊤⟩]
  | a, i :: is =>
      (if i.low = ⊥ then [] else [⟨a, i.low⟩]) ++ if i.high = ⊤ then [] else gaps i.high is

/-- Where a complement may start: at the bottom, or below the first interval. -/
def StartsAt (a : γ) (l : List (Segment γ)) : Prop := a < ⊤ ∧ ∀ i ∈ l, a = ⊥ ∨ a < i.low

lemma startsAt_bot [Nontrivial γ] (l : List (Segment γ)) : StartsAt ⊥ l :=
  ⟨bot_lt_top, fun _ _ => .inl rfl⟩

lemma Separated.startsAt_tail {i : Segment γ} {l : List (Segment γ)} (h : Separated (i :: l))
    (hi : i.high ≠ ⊤) : StartsAt i.high l :=
  ⟨lt_top_iff_ne_top.mpr hi, fun j hj => .inr (h.lt_of_mem j hj)⟩

lemma StartsAt.le {a : γ} {i : Segment γ} {l : List (Segment γ)} (h : StartsAt a (i :: l)) :
    a ≤ i.low := by
  rcases h.2 i List.mem_cons_self with rfl | hlt
  · exact bot_le
  · exact hlt.le

lemma le_low_of_mem_gaps : {a : γ} → {l : List (Segment γ)} → Separated l → StartsAt a l →
    ∀ t ∈ gaps a l, a ≤ t.low
  | a, [], _, _, t, ht => by rw [List.mem_singleton.mp ht]
  | a, i :: is, h, ha, t, ht => by
      rcases List.mem_append.mp ht with ht | ht
      · split at ht
        · cases ht
        · rw [List.mem_singleton.mp ht]
      · split at ht
        · cases ht
        case isFalse hhigh =>
          calc a ≤ i.low := ha.le
            _ ≤ i.high := h.head_lt.le
            _ ≤ t.low := le_low_of_mem_gaps h.tail (h.startsAt_tail hhigh) t ht

/-- The complement holds the points that the list does not. -/
theorem covers_gaps {U : LowerSet γ} (htop : ⊤ ∉ U) : {a : γ} → {l : List (Segment γ)} →
    Separated l → StartsAt a l → a ∈ U → (Covers (gaps a l) U ↔ ¬ Covers l U)
  | a, [], _, _, ha => by
      refine ⟨fun _ => not_covers_nil U, fun _ => ⟨⟨a, ⊤⟩, List.mem_singleton_self _, ha, htop⟩⟩
  | a, i :: is, h, hstart, ha => by
      have hfirst : Covers (if i.low = ⊥ then [] else [(⟨a, i.low⟩ : Segment γ)]) U ↔
          i.low ∉ U := by
        split
        case isTrue hbot =>
          have hmem : i.low ∈ U := hbot ▸ U.lower bot_le ha
          exact iff_of_false (not_covers_nil U) (not_not_intro hmem)
        case isFalse => simp [Segment.Holds, ha]
      have hrest : Covers (if i.high = ⊤ then [] else gaps i.high is) U ↔
          i.high ∈ U ∧ ¬ Covers is U := by
        split
        case isTrue hhigh =>
          exact iff_of_false (not_covers_nil U) fun hmem => htop (hhigh ▸ hmem.1)
        case isFalse hhigh =>
          by_cases hmem : i.high ∈ U
          · rw [covers_gaps htop h.tail (h.startsAt_tail hhigh) hmem, and_iff_right hmem]
          · refine iff_of_false ?_ fun hboth => hmem hboth.1
            rintro ⟨t, ht, hlow, -⟩
            exact hmem (U.lower (le_low_of_mem_gaps h.tail (h.startsAt_tail hhigh) t ht) hlow)
      have hbelow : i.high ∈ U → i.low ∈ U := fun hmem => U.lower h.head_lt.le hmem
      have hlater : Covers is U → i.high ∈ U := by
        rintro ⟨j, hj, hlow, -⟩
        exact U.lower (h.lt_of_mem j hj).le hlow
      rw [gaps, covers_append, hfirst, hrest, covers_cons, Segment.Holds]
      tauto

theorem separated_gaps : {a : γ} → {l : List (Segment γ)} → Separated l → StartsAt a l →
    Separated (gaps a l)
  | a, [], _, hstart => .singleton hstart.1
  | a, i :: is, h, hstart => by
      have hrest : Separated (if i.high = ⊤ then [] else gaps i.high is) := by
        split
        · exact .nil
        case isFalse hhigh => exact separated_gaps h.tail (h.startsAt_tail hhigh)
      rw [gaps]
      split
      case isTrue => exact hrest
      case isFalse hlow =>
        refine .cons ?_ (fun t ht => ?_) hrest
        · rcases hstart.2 i List.mem_cons_self with rfl | hlt
          · exact bot_lt_iff_ne_bot.mpr hlow
          · exact hlt
        · split at ht
          · cases ht
          case isFalse hhigh =>
            exact h.head_lt.trans_le (le_low_of_mem_gaps h.tail (h.startsAt_tail hhigh) t ht)

end

/-! ### A list that holds everything -/

/-- A separated list within an interval that holds all its points is that interval. -/
theorem eq_singleton_of_covers {a b : γ} (hab : a < b) {l : List (Segment γ)} (h : Separated l)
    (hwithin : Within a b l) (hall : ∀ U : LowerSet γ, a ∈ U → b ∉ U → Covers l U) :
    l = [⟨a, b⟩] := by
  cases l with
  | nil =>
      have hb : b ∉ LowerSet.Iic a := fun hmem => absurd (LowerSet.mem_Iic_iff.mp hmem) hab.not_ge
      exact absurd (hall (.Iic a) (LowerSet.mem_Iic_iff.mpr le_rfl) hb) (not_covers_nil _)
  | cons i is =>
      have hi := hwithin i List.mem_cons_self
      have hlater : ∀ j ∈ is, i.high < j.low := h.lt_of_mem
      have hlow : i.low = a := by
        have hb : b ∉ LowerSet.Iic a := fun hmem => absurd (LowerSet.mem_Iic_iff.mp hmem) hab.not_ge
        obtain ⟨j, hj, hjlow, -⟩ := hall (.Iic a) (LowerSet.mem_Iic_iff.mpr le_rfl) hb
        have hja : j.low ≤ a := LowerSet.mem_Iic_iff.mp hjlow
        rcases List.mem_cons.mp hj with rfl | hj
        · exact le_antisymm hja hi.1
        · have hlt := h.head_lt.trans ((hlater j hj).trans_le hja)
          exact absurd hi.1 hlt.not_ge
      have hhigh : i.high = b := by
        by_contra hne
        have hlt : i.high < b := lt_of_le_of_ne hi.2 hne
        have hb : b ∉ LowerSet.Iic i.high :=
          fun hmem => absurd (LowerSet.mem_Iic_iff.mp hmem) hlt.not_ge
        have ha : a ∈ LowerSet.Iic i.high :=
          LowerSet.mem_Iic_iff.mpr (hlow ▸ h.head_lt.le)
        obtain ⟨j, hj, hjlow, hjhigh⟩ := hall _ ha hb
        rcases List.mem_cons.mp hj with rfl | hj
        · exact hjhigh (LowerSet.mem_Iic_iff.mpr le_rfl)
        · exact absurd (LowerSet.mem_Iic_iff.mp hjlow) (hlater j hj).not_ge
      have hnil : is = [] := by
        cases is with
        | nil => rfl
        | cons j js =>
            have hj := hwithin j (List.mem_cons_of_mem _ List.mem_cons_self)
            have hbj : b < j.low := hhigh ▸ hlater j List.mem_cons_self
            exact absurd hj.2 (hbj.trans h.tail.head_lt).not_ge
      rw [hnil, ← hlow, ← hhigh]

end Verax.Lib.Intervals
