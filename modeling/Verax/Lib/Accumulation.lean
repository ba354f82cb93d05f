import Mathlib.Algebra.BigOperators.Group.Finset.Basic
import Mathlib.Algebra.Order.Group.Multiset

/-!
# Loops that accumulate until nothing is new

A loop turns each round's rows into the next round's and collects them all. It stops after a round
without rows, and may fail if that does not happen within a number of rounds.

* `accumulate_eq`: a loop whose rounds run dry in time collects the rows of every round.
-/

namespace Verax.Lib.Accumulation

variable {α ε : Type}

/-- Up to `bound` more rounds, from the rows of the last round and those collected so far; `stopped`
is the outcome if none of the rounds is empty. -/
def accumulate (step : Multiset α → Except ε (Multiset α))
    (stopped : Multiset α → Except ε (Multiset α)) :
    ℕ → Multiset α → Multiset α → Except ε (Multiset α)
  | 0, _, result => stopped result
  | bound + 1, delta, result => do
      let delta ← step delta
      let result := result + delta
      if Multiset.card delta = 0 then return result
      accumulate step stopped bound delta result

variable {step stopped : Multiset α → Except ε (Multiset α)} {deltas : ℕ → Multiset α} {last : ℕ}

/-- The loop from round `k` on, when it runs dry after round `last` and its bound allows for the
empty round. -/
lemma accumulate_from (hstep : ∀ k ≤ last, step (deltas k) = .ok (deltas (k + 1)))
    (hzero : ∀ k, deltas k = 0 → deltas (k + 1) = 0) (hlast : deltas (last + 1) = 0) :
    ∀ {bound k : ℕ}, k ≤ last → last < k + bound →
      accumulate step stopped bound (deltas k) (∑ i ∈ Finset.range (k + 1), deltas i) =
        .ok (∑ i ∈ Finset.range (last + 1), deltas i)
  | 0, k, hk, hbound => absurd hbound (by omega)
  | bound + 1, k, hk, hbound => by
      rw [accumulate, hstep k hk]
      change (if _ then pure _ else _) = _
      split
      · -- nothing is new from here on
        rename_i hempty
        have hdry : ∀ i, deltas (k + 1 + i) = 0 := fun i => by
          induction i with
          | zero => exact Multiset.card_eq_zero.mp hempty
          | succ i ih => exact hzero _ ih
        rw [show deltas (k + 1) = 0 from hdry 0, add_zero]
        refine congrArg Except.ok (Finset.sum_subset (fun i hi => ?_) fun i _ hi => ?_)
        · rw [Finset.mem_range] at hi ⊢
          omega
        · rw [Finset.mem_range, Nat.not_lt] at hi
          obtain ⟨j, rfl⟩ := Nat.exists_eq_add_of_le hi
          exact hdry j
      · rename_i hmore
        have hne : k ≠ last := by
          rintro rfl
          exact hmore (by rw [hlast, Multiset.card_zero])
        rw [← Finset.sum_range_succ]
        exact accumulate_from hstep hzero hlast (by omega) (by omega)

/-- A loop whose rounds run dry in time collects the rows of every round. -/
theorem accumulate_eq (hstep : ∀ k ≤ last, step (deltas k) = .ok (deltas (k + 1)))
    (hzero : ∀ k, deltas k = 0 → deltas (k + 1) = 0) (hlast : deltas (last + 1) = 0) {bound : ℕ}
    (hbound : last < bound) :
    accumulate step stopped bound (deltas 0) (deltas 0) =
      .ok (∑ i ∈ Finset.range (last + 1), deltas i) := by
  simpa using accumulate_from hstep hzero hlast (Nat.zero_le last) (by omega)

end Verax.Lib.Accumulation
