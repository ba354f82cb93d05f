import Mathlib.Data.List.Nodup
import Mathlib.Data.Set.Function

/-!
# First occurrences

The list of a list's items, each where it occurs first: `List.eraseDups`.

* `nodup_eraseDups`, `eraseDups_concat`: no item twice, and what one more item adds.
* `eraseDups_map`: mapping by an injection.
* `keepUnseen_eq`: a loop that keeps the items not met before keeps the first occurrences.
-/

namespace Verax.Lib.FirstOccurrences

variable {α β : Type*} [BEq α] [LawfulBEq α] [BEq β] [LawfulBEq β]

/-- No item occurs twice among the first occurrences. -/
lemma nodup_eraseDups : ∀ l : List α, l.eraseDups.Nodup
  | [] => by simp
  | a :: l => by
      rw [List.eraseDups_cons, List.nodup_cons]
      refine ⟨fun hmem => ?_, nodup_eraseDups _⟩
      simp at hmem
termination_by l => l.length
decreasing_by exact Nat.lt_succ_of_le (List.length_filter_le ..)

/-- One more item is one more first occurrence if it is new. -/
lemma eraseDups_concat (l : List α) (a : α) :
    (l ++ [a]).eraseDups = if a ∈ l then l.eraseDups else l.eraseDups ++ [a] := by
  rw [List.eraseDups_append]
  split <;> simp_all [List.removeAll, List.eraseDups_cons]

/-- Items that an injection tells apart have the same first occurrences. -/
lemma eraseDups_map {f : α → β} : ∀ {l : List α}, Set.InjOn f {a | a ∈ l} →
    (l.map f).eraseDups = l.eraseDups.map f
  | [], _ => by simp
  | a :: l, hinj => by
      have hfilter : (l.map f).filter (fun b => !b == f a) = (l.filter fun b => !b == a).map f := by
        rw [List.filter_map]
        refine congrArg _ (List.filter_congr fun b hb => ?_)
        rw [Function.comp_apply, Bool.not_inj_iff, Bool.eq_iff_iff, beq_iff_eq, beq_iff_eq]
        exact hinj.eq_iff (List.mem_cons_of_mem a hb) List.mem_cons_self
      rw [List.map_cons, List.eraseDups_cons, List.eraseDups_cons, List.map_cons, hfilter,
        eraseDups_map (hinj.mono fun b hb => List.mem_cons_of_mem a (List.mem_filter.mp hb).1)]
termination_by l => l.length
decreasing_by exact Nat.lt_succ_of_le (List.length_filter_le ..)

/-- The items not met before; `seen` have been. -/
def keepUnseen : List α → List α → List α
  | _, [] => []
  | seen, a :: l => if a ∈ seen then keepUnseen seen l else a :: keepUnseen (a :: seen) l

/-- A loop that keeps the items not met before keeps the first occurrences. -/
lemma keepUnseen_eq : ∀ (l seen : List α), keepUnseen seen l = (l.filter (· ∉ seen)).eraseDups
  | [], seen => by simp [keepUnseen]
  | a :: l, seen => by
      rw [keepUnseen, List.filter_cons]
      split
      · rename_i hseen
        rw [if_neg (by simp [hseen]), keepUnseen_eq l seen]
      · rename_i hseen
        rw [if_pos (by simp [hseen]), List.eraseDups_cons, keepUnseen_eq l, List.filter_filter]
        refine congrArg (a :: ·) (congrArg _ (List.filter_congr fun b _ => ?_))
        rw [Bool.eq_iff_iff]
        simp

end Verax.Lib.FirstOccurrences
