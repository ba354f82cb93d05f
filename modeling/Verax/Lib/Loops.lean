import Verax.Lib.StateExcept

/-!
# Loops that end by themselves

A loop runs a *round* over and over: a round answers with the value that the next one starts from,
or with the value that the loop ends with. `LoopRuns` is such a loop without any bound. A function
that unfolds the rounds up to a bound computes the same loop when the bound covers a variant
(`loopRuns_iff`), so the answer it falls back to at the bound is never given.
-/

namespace Verax.Lib.Loops

open StateExcept

variable {ε σ α β : Type} {round : α → Checked ε σ (α ⊕ β)}

/-- The outcome and the state that a loop ends with, from a value and a state. -/
inductive LoopRuns (round : α → Checked ε σ (α ⊕ β)) : α → σ → Except ε β × σ → Prop
  | ended {a : α} {s s' : σ} {b : β} :
      exec (round a) s = (.ok (.inr b), s') → LoopRuns round a s (.ok b, s')
  | raised {a : α} {s s' : σ} {e : ε} :
      exec (round a) s = (.error e, s') → LoopRuns round a s (.error e, s')
  | again {a a' : α} {s s' : σ} {r : Except ε β × σ} :
      exec (round a) s = (.ok (.inl a'), s') → LoopRuns round a' s' r → LoopRuns round a s r

/-- A loop ends in one way only. -/
lemma LoopRuns.unique {a : α} {s : σ} {r r' : Except ε β × σ} (h : LoopRuns round a s r)
    (h' : LoopRuns round a s r') : r = r' := by
  induction h with
  | ended hround =>
      cases h' with
      | ended hround' => cases hround.symm.trans hround'; rfl
      | raised hround' => cases hround.symm.trans hround'
      | again hround' _ => cases hround.symm.trans hround'
  | raised hround =>
      cases h' with
      | ended hround' => cases hround.symm.trans hround'
      | raised hround' => cases hround.symm.trans hround'; rfl
      | again hround' _ => cases hround.symm.trans hround'
  | again hround _ ih =>
      cases h' with
      | ended hround' => cases hround.symm.trans hround'
      | raised hround' => cases hround.symm.trans hround'
      | again hround' hrest =>
          cases hround.symm.trans hround'
          exact ih hrest

/-- What the rounds preserve holds of the value that a loop ends with. -/
lemma LoopRuns.returns {I : α → Prop} {Q : β → Prop}
    (hround : ∀ a, I a → Triple (fun _ => True) (round a) fun r _ =>
      (∀ a', r = .inl a' → I a') ∧ ∀ b, r = .inr b → Q b)
    {a : α} {s : σ} {r : Except ε β × σ} (h : LoopRuns round a s r) (ha : I a) :
    ∀ b, r.1 = .ok b → Q b := by
  induction h with
  | ended hexec =>
      intro b heq
      obtain rfl := Except.ok.inj heq
      exact (hround _ ha _ trivial _ _ hexec).2 _ rfl
  | raised hexec => exact fun b heq => by cases heq
  | again hexec _ ih => exact ih ((hround _ ha _ trivial _ _ hexec).1 _ rfl)

/-- **A bound that covers a variant bounds nothing.** The rounds keep an invariant and make the
variant smaller; a function that runs up to `bound` of them runs the loop, when the variant is
below `bound` at the start. -/
theorem loopRuns_iff {bounded : ℕ → α → Checked ε σ β}
    (hsucc : ∀ bound a, bounded (bound + 1) a = round a >>= Sum.elim (bounded bound) pure)
    {I : α → Prop} {variant : α → ℕ}
    (hround : ∀ a, I a → Triple (fun _ => True) (round a) fun r _ =>
      ∀ a', r = .inl a' → I a' ∧ variant a' < variant a)
    {bound : ℕ} {a : α} {s : σ} {r : Except ε β × σ} (ha : I a) (hbound : variant a < bound) :
    LoopRuns round a s r ↔ r = exec (bounded bound a) s := by
  suffices hruns : LoopRuns round a s (exec (bounded bound a) s) from
    ⟨fun h => h.unique hruns, fun h => h ▸ hruns⟩
  induction bound generalizing a s with
  | zero => exact absurd hbound (Nat.not_lt_zero _)
  | succ bound ih =>
      rw [hsucc, exec_bind]
      rcases hexec : exec (round a) s with ⟨e | next, s'⟩
      · exact .raised hexec
      · cases next with
        | inl a' =>
            obtain ⟨ha', hlt⟩ := hround a ha s trivial _ s' hexec a' rfl
            exact .again hexec (ih ha' (Nat.lt_of_lt_of_le hlt (Nat.le_of_lt_succ hbound)))
        | inr b => exact .ended hexec

end Verax.Lib.Loops
