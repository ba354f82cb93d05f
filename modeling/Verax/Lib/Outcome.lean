import Mathlib.Data.List.Forall2

/-!
# Computations that return or raise

Rules that take a successful `Except` computation apart: its steps succeeded, one after the other.

* `bind_eq_ok`, `map_eq_ok`: sequencing.
* `ite_error_eq_ok`: passing a check.
* `foldlM_cons_eq_ok`: one round of a loop over a list.
* `forall₂_of_mapM`, `exists_mapM`: a loop that collects results.
* `exists_of_forall₂`: items of such a loop.
-/

namespace Verax.Lib.Outcome

universe u

variable {ε : Type*} {α β σ : Type u}

/-- A sequence succeeds if its parts do. -/
lemma bind_eq_ok {m : Except ε α} {f : α → Except ε β} {b : β} :
    (m >>= f) = .ok b ↔ ∃ a, m = .ok a ∧ f a = .ok b := by
  cases m with
  | error e => simp [Bind.bind, Except.bind]
  | ok a => simp [Bind.bind, Except.bind]

/-- A mapped computation succeeds if it does. -/
lemma map_eq_ok {m : Except ε α} {f : α → β} {b : β} :
    m.map f = .ok b ↔ ∃ a, m = .ok a ∧ f a = b := by
  cases m with
  | error e => simp [Except.map]
  | ok a => simp [Except.map]

/-- A check is passed if its condition does not hold. -/
lemma ite_error_eq_ok {p : Prop} [Decidable p] {e : ε} {m : Except ε α} {a : α} :
    (if p then .error e else m) = .ok a ↔ ¬p ∧ m = .ok a := by
  split <;> simp_all

/-- A loop succeeds if its first round and the rest do. -/
lemma foldlM_cons_eq_ok {f : σ → α → Except ε σ} {a : α} {l : List α} {s s' : σ} :
    (a :: l).foldlM f s = .ok s' ↔ ∃ s₁, f s a = .ok s₁ ∧ l.foldlM f s₁ = .ok s' := by
  rw [List.foldlM_cons, bind_eq_ok]

/-- A successful loop has a result for each item. -/
lemma forall₂_of_mapM {f : α → Except ε β} :
    ∀ {l : List α} {l' : List β}, l.mapM f = .ok l' → List.Forall₂ (fun a b => f a = .ok b) l l'
  | [], l', h => by
      rw [List.mapM_nil] at h
      cases h
      exact .nil
  | a :: l, l', h => by
      rw [List.mapM_cons, bind_eq_ok] at h
      obtain ⟨b, hb, h⟩ := h
      obtain ⟨bs, hbs, h⟩ := bind_eq_ok.mp h
      cases h
      exact .cons hb (forall₂_of_mapM hbs)

/-- A loop whose every round succeeds has a result for each item. -/
lemma exists_mapM {f : α → Except ε β} {R : α → β → Prop} :
    ∀ {l : List α}, (∀ a ∈ l, ∃ b, f a = .ok b ∧ R a b) →
      ∃ l', l.mapM f = .ok l' ∧ List.Forall₂ R l l'
  | [], _ => ⟨[], by rw [List.mapM_nil]; rfl, .nil⟩
  | a :: l, h => by
      obtain ⟨b, hb, hR⟩ := h a List.mem_cons_self
      obtain ⟨l', hl', hforall⟩ := exists_mapM fun a' ha' => h a' (List.mem_cons_of_mem a ha')
      refine ⟨b :: l', ?_, .cons hR hforall⟩
      rw [List.mapM_cons, hb, hl']
      rfl

/-- Each item of a list is related to one of the other. -/
lemma exists_of_forall₂ {γ δ : Type*} {R : γ → δ → Prop} {l : List γ} {l' : List δ}
    (h : List.Forall₂ R l l') {c : γ} (hc : c ∈ l) : ∃ d ∈ l', R c d := by
  induction h with
  | nil => cases hc
  | cons hR _ ih =>
    rcases List.mem_cons.mp hc with rfl | hc
    · exact ⟨_, List.mem_cons_self, hR⟩
    · obtain ⟨d, hd, hR⟩ := ih hc
      exact ⟨d, List.mem_cons_of_mem _ hd, hR⟩

end Verax.Lib.Outcome
