import Mathlib.Data.List.Perm.Subperm

/-!
# Fresh names

A name that is taken is replaced by numbered ones until one is free. Numbered names are distinct, so
the search ends after as many rounds as there are names taken.

* `search`: the candidate that is free, and the next number.
* `search_notMem`: it is free, given enough rounds.
-/

namespace Verax.Lib.FreshNames

variable {α : Type*} [DecidableEq α]

/-- The first free one of a candidate and the numbered names from `next` on, in some rounds, and the
number after the last one tried. -/
def search (taken : List α) (numbered : ℕ → α) : ℕ → α → ℕ → α × ℕ
  | 0, candidate, next => (candidate, next)
  | rounds + 1, candidate, next =>
      if candidate ∈ taken then search taken numbered rounds (numbered next) (next + 1)
      else (candidate, next)

/-- The candidates tried before are distinct names that are taken, so there are not more of them. -/
lemma search_notMem_of_tried {taken : List α} {numbered : ℕ → α}
    (hnumbered : Function.Injective numbered) : ∀ {rounds : ℕ} (tried : List α) {candidate : α}
      {next : ℕ}, tried.Nodup → tried ⊆ taken → candidate ∉ tried →
        (∀ k ≥ next, numbered k ∉ candidate :: tried) → taken.length < tried.length + rounds →
          (search taken numbered rounds candidate next).1 ∉ taken
  | 0, tried, candidate, next, hnodup, hsubset, _, _, hlength => by
      have := (List.subperm_of_subset hnodup hsubset).length_le
      omega
  | rounds + 1, tried, candidate, next, hnodup, hsubset, hcandidate, hnext, hlength => by
      rw [search]
      split
      · next htaken =>
        refine search_notMem_of_tried hnumbered (candidate :: tried)
          (List.nodup_cons.mpr ⟨hcandidate, hnodup⟩) (List.cons_subset.mpr ⟨htaken, hsubset⟩)
          (hnext next (Nat.le_refl next)) (fun k hk hmem => ?_) (by simp only [List.length_cons]; omega)
        rcases List.mem_cons.mp hmem with heq | hmem
        · have := hnumbered heq
          omega
        · exact hnext k (by omega) hmem
      · next htaken => exact htaken

/-- The search ends with a free name if it has more rounds than there are names taken. -/
lemma search_notMem {taken : List α} {numbered : ℕ → α} (hnumbered : Function.Injective numbered)
    {rounds : ℕ} (hrounds : taken.length < rounds) {candidate : α}
    (hcandidate : ∀ k, numbered k ≠ candidate) (next : ℕ) :
    (search taken numbered rounds candidate next).1 ∉ taken :=
  search_notMem_of_tried hnumbered [] List.nodup_nil (List.nil_subset _)
    List.not_mem_nil (fun k _ => by simpa using hcandidate k) (by simpa using hrounds)

end Verax.Lib.FreshNames
