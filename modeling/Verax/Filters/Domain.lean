import Mathlib.Data.Prod.Lex
import Mathlib.Order.WithBot
import Verax.Lib.Intervals

/-!
# Domains

A domain is what a filter says about one column: whether NULL passes, and the other values that do,
as sorted ranges. The operations are those of `Domain.cpp`, over any linear order; that the ranges
stay sorted and apart is a field of the structure.

* `Range`, `Domain` and their operations.
* `Bound.lowCut`, `Bound.highCut`: a bound as a cut; each operation is the library's on cuts.
* `holds_intersect`, `holds_unite`, `holds_complement`: what the operations hold.
-/

namespace Verax.Filters

open Lib.Intervals

/-! ### Bounds -/

/-- An end of a range.
Source: `Domain.h` `Bound`. -/
structure Bound (α : Type) where
  value : α
  inclusive : Bool
  deriving DecidableEq, Repr

variable {α : Type} [LinearOrder α]

/-- Source: `Domain.cpp` `compareBoundValues`. -/
def compareBoundValues (lhs rhs : α) : Ordering :=
  if lhs < rhs then .lt else if rhs < lhs then .gt else .eq

/-- Compares two low bounds: no bound comes before any value, inclusive before exclusive.
Source: `Domain.cpp` `compareLowBounds`. -/
def compareLowBounds : Option (Bound α) → Option (Bound α) → Ordering
  | none, none => .eq
  | none, some _ => .lt
  | some _, none => .gt
  | some lhs, some rhs =>
      match compareBoundValues lhs.value rhs.value with
      | .eq => if lhs.inclusive = rhs.inclusive then .eq else if lhs.inclusive then .lt else .gt
      | order => order

/-- Compares two high bounds: no bound comes after any value, inclusive after exclusive.
Source: `Domain.cpp` `compareHighBounds`. -/
def compareHighBounds : Option (Bound α) → Option (Bound α) → Ordering
  | none, none => .eq
  | none, some _ => .gt
  | some _, none => .lt
  | some lhs, some rhs =>
      match compareBoundValues lhs.value rhs.value with
      | .eq => if lhs.inclusive = rhs.inclusive then .eq else if lhs.inclusive then .gt else .lt
      | order => order

/-- Source: `Domain.cpp` `maxLow`. -/
def maxLow (lhs rhs : Option (Bound α)) : Option (Bound α) :=
  if compareLowBounds lhs rhs ≠ .lt then lhs else rhs

/-- Source: `Domain.cpp` `minLow`. -/
def minLow (lhs rhs : Option (Bound α)) : Option (Bound α) :=
  if compareLowBounds lhs rhs ≠ .gt then lhs else rhs

/-- Source: `Domain.cpp` `maxHigh`. -/
def maxHigh (lhs rhs : Option (Bound α)) : Option (Bound α) :=
  if compareHighBounds lhs rhs ≠ .lt then lhs else rhs

/-- Source: `Domain.cpp` `minHigh`. -/
def minHigh (lhs rhs : Option (Bound α)) : Option (Bound α) :=
  if compareHighBounds lhs rhs ≠ .gt then lhs else rhs

/-- Whether a range with these bounds holds something.
Source: `Domain.cpp` `lowNotAboveHigh`. -/
def lowNotAboveHigh : Option (Bound α) → Option (Bound α) → Bool
  | some low, some high =>
      match compareBoundValues low.value high.value with
      | .lt => true
      | .gt => false
      | .eq => low.inclusive && high.inclusive
  | _, _ => true

/-! ### Ranges -/

/-- Source: `Domain.h` `Range`. -/
structure Range (α : Type) where
  low : Option (Bound α)
  high : Option (Bound α)
  deriving DecidableEq, Repr

namespace Range

/-- Source: `Domain.cpp` `Range::singleValue`. -/
def singleValue (value : α) : Range α := ⟨some ⟨value, true⟩, some ⟨value, true⟩⟩

/-- Source: `Domain.h` `Range::unbounded`. -/
def unbounded : Range α := ⟨none, none⟩

/-- Source: `Domain.cpp` `Range::isSingleValue`. -/
def isSingleValue (r : Range α) : Bool :=
  match r.low, r.high with
  | some low, some high => low.inclusive && high.inclusive && decide (low.value = high.value)
  | _, _ => false

/-- Source: `Domain.cpp` `Range::intersect`. -/
def intersect (r other : Range α) : Option (Range α) :=
  if lowNotAboveHigh (maxLow r.low other.low) (minHigh r.high other.high) then
    some ⟨maxLow r.low other.low, minHigh r.high other.high⟩
  else none

/-- Source: `Domain.cpp` `Range::overlapsOrAdjacent`. -/
def overlapsOrAdjacent (r other : Range α) : Bool :=
  match maxLow r.low other.low, minHigh r.high other.high with
  | some low, some high =>
      match compareBoundValues low.value high.value with
      | .lt => true
      | .gt => false
      | .eq => low.inclusive || high.inclusive
  | _, _ => true

/-- Source: `Domain.cpp` `Range::merge`. -/
def merge (r other : Range α) : Range α := ⟨minLow r.low other.low, maxHigh r.high other.high⟩

end Range

/-! ### Cuts -/

/-- A place between values, below all or above all. -/
abbrev Cut (α : Type) := WithBot (WithTop (α ×ₗ Bool))

/-- The cut just below a value, or just above it. -/
def cutAt (value : α) (above : Bool) : Cut α := WithBot.some (WithTop.some (toLex (value, above)))

/-- Where a range with this low bound starts. -/
def lowCut : Option (Bound α) → Cut α
  | none => ⊥
  | some bound => cutAt bound.value (!bound.inclusive)

/-- Where a range with this high bound ends. -/
def highCut : Option (Bound α) → Cut α
  | none => ⊤
  | some bound => cutAt bound.value bound.inclusive

def Range.toInterval (r : Range α) : Segment (Cut α) := ⟨lowCut r.low, highCut r.high⟩

lemma cutAt_lt_cutAt {x y : α} {a b : Bool} :
    cutAt x a < cutAt y b ↔ x < y ∨ x = y ∧ a < b := by
  rw [cutAt, cutAt, WithBot.coe_lt_coe, WithTop.coe_lt_coe, Prod.Lex.lt_iff]
  rfl

lemma bot_lt_cutAt (x : α) (a : Bool) : ⊥ < cutAt x a := WithBot.bot_lt_coe _

lemma cutAt_lt_top (x : α) (a : Bool) : cutAt x a < ⊤ :=
  WithBot.coe_lt_coe.mpr (WithTop.coe_lt_top _)

omit [LinearOrder α] in
lemma cutAt_inj {x y : α} {a b : Bool} : cutAt x a = cutAt y b ↔ x = y ∧ a = b := by
  rw [cutAt, cutAt, WithBot.coe_inj, WithTop.coe_inj, toLex_inj, Prod.mk.injEq]

lemma compareBoundValues_cases (x y : α) :
    (compareBoundValues x y = .lt ∧ x < y) ∨ (compareBoundValues x y = .gt ∧ y < x) ∨
      (compareBoundValues x y = .eq ∧ x = y) := by
  rcases lt_trichotomy x y with h | h | h
  · exact .inl ⟨if_pos h, h⟩
  · exact .inr (.inr ⟨by simp [compareBoundValues, h], h⟩)
  · exact .inr (.inl ⟨by simp [compareBoundValues, h, h.not_gt], h⟩)

/-- Comparing low bounds is comparing where the ranges start. -/
lemma compareLowBounds_cases (a b : Option (Bound α)) :
    (compareLowBounds a b = .lt ∧ lowCut a < lowCut b) ∨
      (compareLowBounds a b = .gt ∧ lowCut b < lowCut a) ∨
      (compareLowBounds a b = .eq ∧ lowCut a = lowCut b) := by
  rcases a with - | ⟨x, i⟩ <;> rcases b with - | ⟨y, j⟩
  · exact .inr (.inr ⟨rfl, rfl⟩)
  · exact .inl ⟨rfl, bot_lt_cutAt _ _⟩
  · exact .inr (.inl ⟨rfl, bot_lt_cutAt _ _⟩)
  · simp only [compareLowBounds, lowCut, cutAt_lt_cutAt, cutAt_inj]
    rcases compareBoundValues_cases x y with ⟨h, hlt⟩ | ⟨h, hlt⟩ | ⟨h, rfl⟩
    · simp [h, hlt]
    · simp [h, hlt]
    · rw [h]
      cases i <;> cases j <;> simp

/-- Comparing high bounds is comparing where the ranges end. -/
lemma compareHighBounds_cases (a b : Option (Bound α)) :
    (compareHighBounds a b = .lt ∧ highCut a < highCut b) ∨
      (compareHighBounds a b = .gt ∧ highCut b < highCut a) ∨
      (compareHighBounds a b = .eq ∧ highCut a = highCut b) := by
  rcases a with - | ⟨x, i⟩ <;> rcases b with - | ⟨y, j⟩
  · exact .inr (.inr ⟨rfl, rfl⟩)
  · exact .inr (.inl ⟨rfl, cutAt_lt_top _ _⟩)
  · exact .inl ⟨rfl, cutAt_lt_top _ _⟩
  · simp only [compareHighBounds, highCut, cutAt_lt_cutAt, cutAt_inj]
    rcases compareBoundValues_cases x y with ⟨h, hlt⟩ | ⟨h, hlt⟩ | ⟨h, rfl⟩
    · simp [h, hlt]
    · simp [h, hlt]
    · rw [h]
      cases i <;> cases j <;> simp

lemma lowCut_maxLow (a b : Option (Bound α)) :
    lowCut (maxLow a b) = max (lowCut a) (lowCut b) := by
  rcases compareLowBounds_cases a b with ⟨h, hcut⟩ | ⟨h, hcut⟩ | ⟨h, hcut⟩
  · simp [maxLow, h, hcut.le]
  · simp [maxLow, h, hcut.le]
  · simp [maxLow, h, hcut]

lemma lowCut_minLow (a b : Option (Bound α)) :
    lowCut (minLow a b) = min (lowCut a) (lowCut b) := by
  rcases compareLowBounds_cases a b with ⟨h, hcut⟩ | ⟨h, hcut⟩ | ⟨h, hcut⟩
  · simp [minLow, h, hcut.le]
  · simp [minLow, h, hcut.le]
  · simp [minLow, h, hcut]

lemma highCut_maxHigh (a b : Option (Bound α)) :
    highCut (maxHigh a b) = max (highCut a) (highCut b) := by
  rcases compareHighBounds_cases a b with ⟨h, hcut⟩ | ⟨h, hcut⟩ | ⟨h, hcut⟩
  · simp [maxHigh, h, hcut.le]
  · simp [maxHigh, h, hcut.le]
  · simp [maxHigh, h, hcut]

lemma highCut_minHigh (a b : Option (Bound α)) :
    highCut (minHigh a b) = min (highCut a) (highCut b) := by
  rcases compareHighBounds_cases a b with ⟨h, hcut⟩ | ⟨h, hcut⟩ | ⟨h, hcut⟩
  · simp [minHigh, h, hcut.le]
  · simp [minHigh, h, hcut.le]
  · simp [minHigh, h, hcut]

/-- A range holds something when it starts before it ends. -/
lemma lowNotAboveHigh_iff (low high : Option (Bound α)) :
    lowNotAboveHigh low high = true ↔ lowCut low < highCut high := by
  rcases low with - | ⟨x, i⟩ <;> rcases high with - | ⟨y, j⟩
  · exact iff_of_true rfl bot_lt_top
  · exact iff_of_true rfl (bot_lt_cutAt _ _)
  · exact iff_of_true rfl (cutAt_lt_top _ _)
  · simp only [lowNotAboveHigh, lowCut, highCut, cutAt_lt_cutAt]
    rcases compareBoundValues_cases x y with ⟨h, hlt⟩ | ⟨h, hlt⟩ | ⟨h, rfl⟩
    · simp [h, hlt]
    · simp [h, hlt.not_gt, hlt.ne']
    · rw [h]
      cases i <;> cases j <;> simp

namespace Range

lemma map_toInterval_intersect (r other : Range α) :
    (r.intersect other).map toInterval = r.toInterval.meet other.toInterval := by
  have hlt : lowNotAboveHigh (maxLow r.low other.low) (minHigh r.high other.high) = true ↔
      max r.toInterval.low other.toInterval.low <
        min r.toInterval.high other.toInterval.high := by
    rw [lowNotAboveHigh_iff, lowCut_maxLow, highCut_minHigh]
    rfl
  unfold intersect Segment.meet
  by_cases h : lowNotAboveHigh (maxLow r.low other.low) (minHigh r.high other.high) = true
  · rw [if_pos h, if_pos (hlt.mp h), Option.map_some, toInterval, lowCut_maxLow, highCut_minHigh]
    rfl
  · rw [if_neg h, if_neg fun h' => h (hlt.mpr h')]
    rfl

lemma overlapsOrAdjacent_iff (r other : Range α) :
    r.overlapsOrAdjacent other = true ↔
      max r.toInterval.low other.toInterval.low ≤
        min r.toInterval.high other.toInterval.high := by
  show _ ↔ max (lowCut r.low) (lowCut other.low) ≤ min (highCut r.high) (highCut other.high)
  rw [← lowCut_maxLow, ← highCut_minHigh, overlapsOrAdjacent]
  rcases maxLow r.low other.low with - | ⟨x, i⟩ <;> rcases minHigh r.high other.high with - | ⟨y, j⟩
  · exact iff_of_true rfl bot_le
  · exact iff_of_true rfl bot_le
  · exact iff_of_true rfl le_top
  · simp only [lowCut, highCut, ← not_lt, cutAt_lt_cutAt]
    rcases compareBoundValues_cases x y with ⟨h, hlt⟩ | ⟨h, hlt⟩ | ⟨h, rfl⟩
    · simp [h, hlt.not_gt, hlt.ne']
    · simp [h, hlt]
    · rw [h]
      cases i <;> cases j <;> simp

lemma toInterval_merge (r other : Range α) :
    (r.merge other).toInterval =
      ⟨min r.toInterval.low other.toInterval.low, max r.toInterval.high other.toInterval.high⟩ := by
  rw [toInterval, merge, lowCut_minLow, highCut_maxHigh]
  rfl

end Range

/-! ### Lists of ranges -/

/-- One round of `intersectRanges`. -/
def intersectFrom (left : Range α) (rest : List (Range α) → List (Range α)) :
    List (Range α) → List (Range α)
  | [] => []
  | right :: rights =>
      (left.intersect right).toList ++
        if compareHighBounds left.high right.high ≠ .gt then rest (right :: rights)
        else intersectFrom left rest rights

/-- Two-pointer merge.
Source: `Domain.cpp` `Domain::intersect`, the loop. -/
def intersectRanges : List (Range α) → List (Range α) → List (Range α)
  | [] => fun _ => []
  | left :: lefts => intersectFrom left (intersectRanges lefts)

/-- What is left of a complement past a low bound.
Source: `Domain.cpp` `Domain::complement`, the loop. -/
def complementFrom : Option (Bound α) → List (Range α) → List (Range α)
  | low, [] => [⟨low, none⟩]
  | low, range :: ranges =>
      (match range.low with
        | some bound => [⟨low, some ⟨bound.value, !bound.inclusive⟩⟩]
        | none => []) ++
      match range.high with
      | some bound => complementFrom (some ⟨bound.value, !bound.inclusive⟩) ranges
      | none => []

/-- Merges a range with those after it that overlap it or touch it.
Source: `Domain.cpp` `Domain::normalize`, the loop. -/
def mergeFrom : Range α → List (Range α) → List (Range α)
  | range, [] => [range]
  | range, next :: ranges =>
      if range.overlapsOrAdjacent next then mergeFrom (range.merge next) ranges
      else range :: mergeFrom next ranges

/-- The order of sorting.
Source: `Domain.cpp` `Domain::normalize`, the comparator. -/
def StartsBy (lhs rhs : Range α) : Prop := compareLowBounds lhs.low rhs.low ≠ .gt

instance : DecidableRel (StartsBy (α := α)) := fun _ _ => instDecidableNot

/-- Source: `Domain.cpp` `Domain::normalize`. -/
def normalize (ranges : List (Range α)) : List (Range α) :=
  match ranges.insertionSort StartsBy with
  | [] => []
  | range :: sorted => mergeFrom range sorted

/-- The ranges as intervals between cuts. -/
abbrev intervals (ranges : List (Range α)) : List (Segment (Cut α)) :=
  ranges.map Range.toInterval

lemma intervals_intersectRanges (l m : List (Range α)) :
    intervals (intersectRanges l m) = meet (intervals l) (intervals m) := by
  induction l generalizing m with
  | nil => rfl
  | cons left lefts ih =>
      induction m with
      | nil => rfl
      | cons right rights ihm =>
          have hhigh : compareHighBounds left.high right.high ≠ .gt ↔
              left.toInterval.high ≤ right.toInterval.high := by
            show _ ↔ highCut left.high ≤ highCut right.high
            rcases compareHighBounds_cases left.high right.high with
              ⟨h, hcut⟩ | ⟨h, hcut⟩ | ⟨h, hcut⟩
            · simp [h, hcut.le]
            · simp [h, hcut]
            · simp [h, hcut]
          have hstep : intersectRanges (left :: lefts) (right :: rights) =
              (left.intersect right).toList ++
                if compareHighBounds left.high right.high ≠ .gt then
                  intersectRanges lefts (right :: rights)
                else intersectRanges (left :: lefts) rights := rfl
          have hunfold : meet (intervals (left :: lefts)) (intervals (right :: rights)) =
              (left.toInterval.meet right.toInterval).toList ++
                if left.toInterval.high ≤ right.toInterval.high then
                  meet (intervals lefts) (intervals (right :: rights))
                else meet (intervals (left :: lefts)) (intervals rights) := rfl
          rw [hstep, hunfold, intervals, List.map_append, ← Option.toList_map,
            Range.map_toInterval_intersect]
          by_cases hle : left.toInterval.high ≤ right.toInterval.high
          · rw [if_pos (hhigh.mpr hle), if_pos hle]
            exact congrArg _ (ih _)
          · rw [if_neg fun h => hle (hhigh.mp h), if_neg hle]
            exact congrArg _ ihm

omit [LinearOrder α] in
lemma highCut_flip (bound : Bound α) :
    highCut (some ⟨bound.value, !bound.inclusive⟩) = lowCut (some bound) := rfl

omit [LinearOrder α] in
lemma lowCut_flip (bound : Bound α) :
    lowCut (some ⟨bound.value, !bound.inclusive⟩) = highCut (some bound) := by
  simp [lowCut, highCut]

lemma intervals_complementFrom (low : Option (Bound α)) (l : List (Range α)) :
    intervals (complementFrom low l) = gaps (lowCut low) (intervals l) := by
  induction l generalizing low with
  | nil => rfl
  | cons range ranges ih =>
      rcases range with ⟨rlow, rhigh⟩
      rw [complementFrom, intervals, List.map_append]
      have hunfold : gaps (lowCut low) (intervals (⟨rlow, rhigh⟩ :: ranges)) =
          (if lowCut rlow = ⊥ then [] else [⟨lowCut low, lowCut rlow⟩]) ++
            if highCut rhigh = ⊤ then [] else gaps (highCut rhigh) (intervals ranges) := rfl
      rw [hunfold]
      congr 1
      · rcases rlow with - | bound
        · rfl
        · have hbot : lowCut (some bound) ≠ ⊥ := (bot_lt_cutAt _ _).ne'
          rw [if_neg hbot]
          rfl
      · rcases rhigh with - | bound
        · have htop : highCut (none : Option (Bound α)) = ⊤ := rfl
          rw [if_pos htop]
          rfl
        · have htop : highCut (some bound) ≠ ⊤ := (cutAt_lt_top _ _).ne
          rw [if_neg htop, ← lowCut_flip]
          exact ih _

lemma intervals_mergeFrom (range : Range α) (l : List (Range α)) :
    intervals (mergeFrom range l) = coalesce range.toInterval (intervals l) := by
  induction l generalizing range with
  | nil => rfl
  | cons next ranges ih =>
      have hunfold : coalesce range.toInterval (intervals (next :: ranges)) =
          if max range.toInterval.low next.toInterval.low ≤
              min range.toInterval.high next.toInterval.high then
            coalesce ⟨min range.toInterval.low next.toInterval.low,
              max range.toInterval.high next.toInterval.high⟩ (intervals ranges)
          else range.toInterval :: coalesce next.toInterval (intervals ranges) := rfl
      rw [mergeFrom, hunfold]
      by_cases h : range.overlapsOrAdjacent next = true
      · rw [if_pos h, if_pos ((range.overlapsOrAdjacent_iff next).mp h), ← Range.toInterval_merge]
        exact ih _
      · rw [if_neg h, if_neg fun h' => h ((range.overlapsOrAdjacent_iff next).mpr h')]
        exact congrArg _ (ih next)

/-- Ranges that all hold something. -/
def Nonempty (ranges : List (Range α)) : Prop :=
  ∀ r ∈ ranges, r.toInterval.low < r.toInterval.high

lemma startsBy_iff (lhs rhs : Range α) :
    StartsBy lhs rhs ↔ lhs.toInterval.low ≤ rhs.toInterval.low := by
  show _ ↔ lowCut lhs.low ≤ lowCut rhs.low
  rcases compareLowBounds_cases lhs.low rhs.low with ⟨h, hcut⟩ | ⟨h, hcut⟩ | ⟨h, hcut⟩
  · simp [StartsBy, h, hcut.le]
  · simp [StartsBy, h, hcut]
  · simp [StartsBy, h, hcut]

/-- Normalization is the library's on the ranges sorted by where they start. -/
lemma exists_intervals_normalize (ranges : List (Range α)) :
    (ranges = [] ∧ normalize ranges = []) ∨
      ∃ range sorted, (range :: sorted).Perm ranges ∧
        (intervals (range :: sorted)).Pairwise (fun i j => i.low ≤ j.low) ∧
        intervals (normalize ranges) = coalesce range.toInterval (intervals sorted) := by
  have htotal : Std.Total (StartsBy (α := α)) :=
    ⟨fun a b => by simpa only [startsBy_iff] using le_total _ _⟩
  have htrans : IsTrans _ (StartsBy (α := α)) :=
    ⟨fun a b c => by simpa only [startsBy_iff] using le_trans⟩
  have hperm : (ranges.insertionSort StartsBy).Perm ranges := List.perm_insertionSort _ ranges
  have hsorted : (ranges.insertionSort StartsBy).Pairwise StartsBy :=
    List.pairwise_insertionSort _ ranges
  unfold normalize
  cases hsort : ranges.insertionSort StartsBy with
  | nil =>
      rw [hsort] at hperm
      exact .inl ⟨hperm.nil_eq.symm, rfl⟩
  | cons range sorted =>
      rw [hsort] at hperm hsorted
      refine .inr ⟨range, sorted, hperm, ?_, intervals_mergeFrom range sorted⟩
      exact List.pairwise_map.mpr (hsorted.imp fun h => (startsBy_iff _ _).mp h)

lemma covers_normalize (ranges : List (Range α)) (U : LowerSet (Cut α)) :
    Covers (intervals (normalize ranges)) U ↔ Covers (intervals ranges) U := by
  rcases exists_intervals_normalize ranges with ⟨rfl, h⟩ | ⟨range, sorted, hperm, -, h⟩
  · rw [h]
  · rw [h, covers_coalesce]
    unfold Covers
    have hmem : ∀ i, i ∈ intervals (range :: sorted) ↔ i ∈ intervals ranges :=
      fun i => (hperm.map Range.toInterval).mem_iff
    exact exists_congr fun i => and_congr_left fun _ => hmem i

lemma separated_normalize {ranges : List (Range α)} (hne : Nonempty ranges) :
    Separated (intervals (normalize ranges)) := by
  rcases exists_intervals_normalize ranges with ⟨-, h⟩ | ⟨range, sorted, hperm, hsorted, h⟩
  · rw [h]
    exact .nil
  · rw [h]
    refine separated_coalesce hsorted fun t ht => ?_
    obtain ⟨r, hr, rfl⟩ := List.mem_map.mp (show t ∈ intervals (range :: sorted) from ht)
    exact hne r (hperm.mem_iff.mp hr)

lemma within_normalize {a b : Cut α} {ranges : List (Range α)}
    (h : Within a b (intervals ranges)) : Within a b (intervals (normalize ranges)) := by
  rcases exists_intervals_normalize ranges with ⟨-, hnil⟩ | ⟨range, sorted, hperm, -, heq⟩
  · rw [hnil]
    exact nofun
  · rw [heq]
    refine within_coalesce fun t ht => ?_
    exact h t ((hperm.map Range.toInterval).mem_iff.mp ht)

lemma nonempty_of_separated {ranges : List (Range α)} (h : Separated (intervals ranges)) :
    Nonempty ranges :=
  fun _ hr => h.nonempty _ (List.mem_map_of_mem hr)

/-! ### Domains -/

/-- Whether NULL passes, and the other values that do.
Source: `Domain.h` `Domain`. -/
structure Domain (α : Type) [LinearOrder α] where
  nullsAllowed : Bool
  ranges : List (Range α)
  separated : Separated (intervals ranges)

namespace Domain

lemma separated_single {r : Range α} (h : lowNotAboveHigh r.low r.high = true) :
    Separated (intervals [r]) :=
  .singleton ((lowNotAboveHigh_iff _ _).mp h)

/-- Source: `Domain.h` `none`. -/
def none : Domain α := ⟨false, [], .nil⟩

/-- Source: `Domain.h` `onlyNull`. -/
def onlyNull : Domain α := ⟨true, [], .nil⟩

/-- Source: `Domain.h` `notNull`. -/
def notNull : Domain α := ⟨false, [.unbounded], separated_single rfl⟩

/-- Source: `Domain.cpp` `singleValue`. -/
def singleValue (value : α) : Domain α :=
  ⟨false, [.singleValue value], separated_single (by
    simp [Range.singleValue, lowNotAboveHigh, compareBoundValues])⟩

/-- Source: `Domain.cpp` `greaterThan`. -/
def greaterThan (value : α) : Domain α :=
  ⟨false, [⟨some ⟨value, false⟩, Option.none⟩], separated_single rfl⟩

/-- Source: `Domain.cpp` `greaterThanOrEqual`. -/
def greaterThanOrEqual (value : α) : Domain α :=
  ⟨false, [⟨some ⟨value, true⟩, Option.none⟩], separated_single rfl⟩

/-- Source: `Domain.cpp` `lessThan`. -/
def lessThan (value : α) : Domain α :=
  ⟨false, [⟨Option.none, some ⟨value, false⟩⟩], separated_single rfl⟩

/-- Source: `Domain.cpp` `lessThanOrEqual`. -/
def lessThanOrEqual (value : α) : Domain α :=
  ⟨false, [⟨Option.none, some ⟨value, true⟩⟩], separated_single rfl⟩

lemma nonempty_singleValues (values : List α) : Nonempty (values.map Range.singleValue) := by
  intro r hr
  obtain ⟨v, -, rfl⟩ := List.mem_map.mp hr
  exact (singleValue v).separated.nonempty _ List.mem_cons_self

/-- Source: `Domain.cpp` `in`. -/
def «in» (values : List α) : Domain α :=
  ⟨false, normalize (values.map Range.singleValue), separated_normalize (nonempty_singleValues _)⟩

/-- Source: `Domain.cpp` `intersect`. -/
def intersect (d other : Domain α) : Domain α where
  nullsAllowed := d.nullsAllowed && other.nullsAllowed
  ranges := intersectRanges d.ranges other.ranges
  separated := intervals_intersectRanges d.ranges other.ranges ▸
    separated_meet d.separated other.separated

/-- Source: `Domain.cpp` `unite`. -/
def unite (d other : Domain α) : Domain α where
  nullsAllowed := d.nullsAllowed || other.nullsAllowed
  ranges := normalize (d.ranges ++ other.ranges)
  separated := separated_normalize fun r hr => (List.mem_append.mp hr).elim
    (nonempty_of_separated d.separated r) (nonempty_of_separated other.separated r)

/-- Source: `Domain.cpp` `complement`. -/
def complement (d : Domain α) : Domain α where
  nullsAllowed := !d.nullsAllowed
  ranges := complementFrom Option.none d.ranges
  separated := intervals_complementFrom Option.none d.ranges ▸
    separated_gaps d.separated (startsAt_bot _)

/-- Source: `Domain.cpp` `subtract`. -/
def subtract (d other : Domain α) : Domain α := d.intersect other.complement

/-- Source: `Domain.cpp` `operator==`. -/
def same (d other : Domain α) : Bool :=
  d.nullsAllowed == other.nullsAllowed && decide (d.ranges = other.ranges)

/-- Source: `Domain.cpp` `isNone`. -/
def isNone (d : Domain α) : Bool := !d.nullsAllowed && d.ranges.isEmpty

/-! ### What domains hold -/

/-- A value that is not NULL passes. -/
def Holds (d : Domain α) (U : LowerSet (Cut α)) : Prop := Covers (intervals d.ranges) U

/-- A domain lies between two cuts. -/
def Within (a b : Cut α) (d : Domain α) : Prop := Lib.Intervals.Within a b (intervals d.ranges)

/-- A point between the lowest and the highest cut. -/
def Proper (U : LowerSet (Cut α)) : Prop := ⊥ ∈ U ∧ ⊤ ∉ U

variable {d other : Domain α} {U : LowerSet (Cut α)} {a b : Cut α}

@[simp] lemma holds_intersect : (d.intersect other).Holds U ↔ d.Holds U ∧ other.Holds U := by
  unfold Holds intersect
  rw [intervals_intersectRanges]
  exact covers_meet d.separated other.separated

@[simp] lemma holds_unite : (d.unite other).Holds U ↔ d.Holds U ∨ other.Holds U := by
  unfold Holds unite
  rw [covers_normalize, intervals, List.map_append]
  exact covers_append

lemma holds_complement (hU : Proper U) : d.complement.Holds U ↔ ¬ d.Holds U := by
  unfold Holds complement
  rw [intervals_complementFrom]
  exact covers_gaps hU.2 d.separated (startsAt_bot _) hU.1

lemma holds_subtract (hU : Proper U) : (d.subtract other).Holds U ↔ d.Holds U ∧ ¬ other.Holds U := by
  rw [subtract, holds_intersect, holds_complement hU]

@[simp] lemma not_holds_none : ¬ (none : Domain α).Holds U := not_covers_nil U

@[simp] lemma not_holds_onlyNull : ¬ (onlyNull : Domain α).Holds U := not_covers_nil U

lemma holds_single {nullsAllowed : Bool} {r : Range α} {h : Separated (intervals [r])} :
    Holds ⟨nullsAllowed, [r], h⟩ U ↔ lowCut r.low ∈ U ∧ highCut r.high ∉ U := by
  unfold Holds
  rw [intervals, List.map_singleton, covers_cons, or_iff_left (not_covers_nil U)]
  rfl

lemma covers_singleValues {values : List α} :
    Covers (intervals (values.map Range.singleValue)) U ↔
      ∃ v ∈ values, cutAt v false ∈ U ∧ cutAt v true ∉ U := by
  constructor
  · rintro ⟨i, hi, hholds⟩
    obtain ⟨r, hr, rfl⟩ := List.mem_map.mp hi
    obtain ⟨v, hv, rfl⟩ := List.mem_map.mp hr
    exact ⟨v, hv, hholds⟩
  · rintro ⟨v, hv, hholds⟩
    exact ⟨_, List.mem_map_of_mem (List.mem_map_of_mem hv), hholds⟩

/-! ### Values -/

/-- Where a value stands among the cuts: above those up to the one just below it. -/
def position (v : α) : LowerSet (Cut α) := .Iic (cutAt v false)

@[simp] lemma cutAt_false_mem_position {x v : α} : cutAt x false ∈ position v ↔ x ≤ v := by
  rw [position, LowerSet.mem_Iic_iff, ← not_lt, cutAt_lt_cutAt, ← not_lt]
  simp

@[simp] lemma cutAt_true_mem_position {x v : α} : cutAt x true ∈ position v ↔ x < v := by
  have h : (v < x ∨ v = x ∧ false < true) ↔ v ≤ x := by simp [le_iff_lt_or_eq]
  rw [position, LowerSet.mem_Iic_iff, ← not_lt, cutAt_lt_cutAt, h, not_le]

lemma proper_position (v : α) : Proper (position v) := by
  refine ⟨LowerSet.mem_Iic_iff.mpr bot_le, fun h => ?_⟩
  exact absurd (LowerSet.mem_Iic_iff.mp h) (cutAt_lt_top v false).not_ge

@[simp] lemma holds_singleValue {x v : α} : (singleValue x).Holds (position v) ↔ v = x := by
  rw [singleValue, holds_single]
  simp [Range.singleValue, lowCut, highCut, le_antisymm_iff, and_comm]

@[simp] lemma holds_greaterThan {x v : α} : (greaterThan x).Holds (position v) ↔ x < v := by
  rw [greaterThan, holds_single]
  simp [lowCut, highCut, (proper_position v).2]

@[simp] lemma holds_greaterThanOrEqual {x v : α} :
    (greaterThanOrEqual x).Holds (position v) ↔ x ≤ v := by
  rw [greaterThanOrEqual, holds_single]
  simp [lowCut, highCut, (proper_position v).2]

@[simp] lemma holds_lessThan {x v : α} : (lessThan x).Holds (position v) ↔ v < x := by
  rw [lessThan, holds_single]
  simp [lowCut, highCut, (proper_position v).1]

@[simp] lemma holds_lessThanOrEqual {x v : α} :
    (lessThanOrEqual x).Holds (position v) ↔ v ≤ x := by
  rw [lessThanOrEqual, holds_single]
  simp [lowCut, highCut, (proper_position v).1]

lemma covers_singleValues_position {values : List α} {v : α} :
    Covers (intervals (values.map Range.singleValue)) (position v) ↔ v ∈ values := by
  rw [covers_singleValues]
  constructor
  · rintro ⟨x, hx, hlow, hhigh⟩
    rw [cutAt_false_mem_position] at hlow
    rw [cutAt_true_mem_position] at hhigh
    rwa [← le_antisymm hlow (not_lt.mp hhigh)]
  · exact fun hv => ⟨v, hv, by simp⟩

@[simp] lemma holds_in_position {values : List α} {v : α} :
    («in» values).Holds (position v) ↔ v ∈ values := by
  unfold Holds «in»
  rw [covers_normalize, covers_singleValues_position]

@[simp] lemma holds_subtract_position {v : α} :
    (d.subtract other).Holds (position v) ↔
      d.Holds (position v) ∧ ¬ other.Holds (position v) :=
  holds_subtract (proper_position v)

/-! ### Limits -/

lemma within_unite (h : d.Within a b) (h' : other.Within a b) : (d.unite other).Within a b := by
  refine within_normalize fun t ht => ?_
  rw [intervals, List.map_append] at ht
  exact (List.mem_append.mp ht).elim (h t) (h' t)

lemma within_intersect (h : d.Within a b ∨ other.Within a b) : (d.intersect other).Within a b := by
  unfold Within intersect
  rw [intervals_intersectRanges]
  exact within_meet h

lemma within_subtract (h : d.Within a b) : (d.subtract other).Within a b :=
  within_intersect (.inl h)

lemma within_none : (none : Domain α).Within a b := nofun

lemma within_onlyNull : (onlyNull : Domain α).Within a b := nofun

lemma holds_notNull (hU : Proper U) : (notNull : Domain α).Holds U := by
  rw [notNull, holds_single]
  exact hU

/-- A domain with a range holds a point of the interval it lies within. -/
lemma exists_holds (hwithin : d.Within a b) (hne : d.ranges ≠ []) :
    ∃ U, a ∈ U ∧ b ∉ U ∧ d.Holds U := by
  obtain ⟨r, rs, hranges⟩ := List.exists_cons_of_ne_nil hne
  have hr : r.toInterval ∈ intervals d.ranges := by
    rw [hranges]
    exact List.mem_cons_self
  obtain ⟨U, hU⟩ : ∃ U : LowerSet (Cut α), U = .Iic r.toInterval.low := ⟨_, rfl⟩
  have hlow : r.toInterval.low ∈ U := hU ▸ LowerSet.mem_Iic_iff.mpr le_rfl
  have hhigh : r.toInterval.high ∉ U := by
    rw [hU, LowerSet.mem_Iic_iff]
    exact (d.separated.nonempty _ hr).not_ge
  obtain ⟨hle, hge⟩ := hwithin _ hr
  exact ⟨U, U.lower hle hlow, fun h => hhigh (U.lower hge h), _, hr, hlow, hhigh⟩

end Domain

end Verax.Filters
