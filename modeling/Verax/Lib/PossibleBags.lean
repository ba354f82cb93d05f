import Mathlib.Data.Multiset.Bind
import Mathlib.Data.Multiset.ZeroCons
import Mathlib.Algebra.BigOperators.Group.Multiset.Basic

/-!
# Bags with more than one outcome

An operator over a bag that treats each item on its own, where what it makes of an item is not
determined: an item has some outcomes, and the bag has those that one outcome of each item gives.

* `Each`: the outcomes of a bag.
* `Alike`: two bags have items that are related, one for one or up to repetition.
* `Matches`: each outcome of one of two programs has one alike of the other.
* `Matches.each`, `Matches.each_of_all`: operators over programs that match.
-/

namespace Verax.Lib.PossibleBags

variable {α β γ δ : Type*}

/-! ### Outcomes of a bag -/

/-- An outcome for each item of a bag, put together. -/
def Each (step : α → Multiset β → Prop) (M : Multiset α) (O : Multiset β) : Prop :=
  ∃ P : Multiset (α × Multiset β), P.map Prod.fst = M ∧ (∀ p ∈ P, step p.1 p.2) ∧
    O = (P.map Prod.snd).sum

variable {step : α → Multiset β → Prop} {M : Multiset α} {O : Multiset β}

@[simp] lemma each_zero : Each step 0 O ↔ O = 0 := by
  constructor
  · rintro ⟨P, hP, -, rfl⟩
    rw [Multiset.map_eq_zero.mp hP]
    rfl
  · rintro rfl
    exact ⟨0, rfl, by simp, rfl⟩

lemma each_cons {a : α} :
    Each step (a ::ₘ M) O ↔ ∃ o O', step a o ∧ Each step M O' ∧ O = o + O' := by
  constructor
  · rintro ⟨P, hP, hstep, rfl⟩
    obtain ⟨p, hp, hrest⟩ := Multiset.mem_map.mp (hP ▸ Multiset.mem_cons_self a M)
    obtain ⟨Q, rfl⟩ := Multiset.exists_cons_of_mem hp
    rw [Multiset.map_cons, hrest] at hP
    refine ⟨p.2, (Q.map Prod.snd).sum, hrest ▸ hstep p (Multiset.mem_cons_self p Q),
      ⟨Q, (Multiset.cons_inj_right a).mp hP,
        fun q hq => hstep q (Multiset.mem_cons_of_mem hq), rfl⟩, ?_⟩
    rw [Multiset.map_cons, Multiset.sum_cons]
  · rintro ⟨o, O', hstep, ⟨P, hP, hsteps, rfl⟩, rfl⟩
    refine ⟨(a, o) ::ₘ P, by rw [Multiset.map_cons, hP], fun p hp => ?_, by simp⟩
    rcases Multiset.mem_cons.mp hp with rfl | hp
    · exact hstep
    · exact hsteps p hp

@[simp] lemma each_singleton {a : α} : Each step {a} O ↔ step a O := by
  rw [← Multiset.cons_zero, each_cons]
  simp

lemma each_add {M N : Multiset α} {O : Multiset β} :
    Each step (M + N) O ↔ ∃ o o', Each step M o ∧ Each step N o' ∧ O = o + o' := by
  induction M using Multiset.induction generalizing O with
  | empty => simp
  | cons a M ih =>
      rw [Multiset.cons_add, each_cons]
      constructor
      · rintro ⟨o, O', hstep, hrest, rfl⟩
        obtain ⟨m, n, hM, hN, rfl⟩ := ih.mp hrest
        exact ⟨o + m, n, each_cons.mpr ⟨o, m, hstep, hM, rfl⟩, hN, (add_assoc o m n).symm⟩
      · rintro ⟨m, n, hM, hN, rfl⟩
        obtain ⟨o, O', hstep, hrest, rfl⟩ := each_cons.mp hM
        exact ⟨o, O' + n, hstep, ih.mpr ⟨O', n, hrest, hN, rfl⟩, add_assoc o O' n⟩

/-- Every bag has an outcome if every item has. -/
lemma exists_each (h : ∀ a, ∃ o, step a o) (M : Multiset α) : ∃ O, Each step M O := by
  induction M using Multiset.induction with
  | empty => exact ⟨0, each_zero.mpr rfl⟩
  | cons a M ih =>
      obtain ⟨o, ho⟩ := h a
      obtain ⟨O, hO⟩ := ih
      exact ⟨o + O, each_cons.mpr ⟨o, O, ho, hO, rfl⟩⟩

/-- A step that gives one thing. -/
lemma each_eq {f : α → Multiset β} : Each (fun a o => o = f a) M O ↔ O = M.bind f := by
  induction M using Multiset.induction generalizing O with
  | empty => simp
  | cons a M ih => simp [each_cons, ih]

lemma each_congr {step' : α → Multiset β → Prop} (h : ∀ a ∈ M, ∀ o, step a o ↔ step' a o) :
    Each step M O ↔ Each step' M O := by
  induction M using Multiset.induction generalizing O with
  | empty => simp
  | cons a M ih =>
      have hrest := fun O' => ih (O := O') fun b hb => h b (Multiset.mem_cons_of_mem hb)
      simp only [each_cons, h a (Multiset.mem_cons_self a M), hrest]

/-- One step after another. -/
lemma each_each {next : β → Multiset γ → Prop} {R : Multiset γ} :
    (∃ O, Each step M O ∧ Each next O R) ↔
      Each (fun a r => ∃ o, step a o ∧ Each next o r) M R := by
  induction M using Multiset.induction generalizing R with
  | empty => simp
  | cons a M ih =>
      constructor
      · rintro ⟨O, hO, hR⟩
        obtain ⟨o, O', hstep, hrest, rfl⟩ := each_cons.mp hO
        obtain ⟨r, R', hr, hR', rfl⟩ := each_add.mp hR
        exact each_cons.mpr ⟨r, R', ⟨o, hstep, hr⟩, ih.mp ⟨O', hrest, hR'⟩, rfl⟩
      · intro hR
        obtain ⟨r, R', ⟨o, hstep, hr⟩, hR', rfl⟩ := each_cons.mp hR
        obtain ⟨O', hrest, hR'⟩ := ih.mpr hR'
        exact ⟨o + O', each_cons.mpr ⟨o, O', hstep, hrest, rfl⟩, each_add.mpr ⟨r, R', hr, hR', rfl⟩⟩

/-- An item of an outcome comes from an item of the bag. -/
lemma exists_of_mem_each (h : Each step M O) {b : β} (hb : b ∈ O) :
    ∃ a ∈ M, ∃ o, step a o ∧ b ∈ o := by
  induction M using Multiset.induction generalizing O with
  | empty =>
      rw [each_zero.mp h] at hb
      cases Multiset.notMem_zero b hb
  | cons a M ih =>
      obtain ⟨o, O', hstep, hrest, rfl⟩ := each_cons.mp h
      rcases Multiset.mem_add.mp hb with hb | hb
      · exact ⟨a, Multiset.mem_cons_self a M, o, hstep, hb⟩
      · obtain ⟨c, hc, hfound⟩ := ih hrest hb
        exact ⟨c, Multiset.mem_cons_of_mem hc, hfound⟩

/-- An item of the bag has its outcome in that of the bag. -/
lemma exists_le_of_each (h : Each step M O) {a : α} (ha : a ∈ M) : ∃ o, step a o ∧ o ≤ O := by
  obtain ⟨N, rfl⟩ := Multiset.exists_cons_of_mem ha
  obtain ⟨o, O', hstep, -, rfl⟩ := each_cons.mp h
  exact ⟨o, hstep, Multiset.le_add_right o O'⟩

/-! ### Alike bags -/

/-- Two bags have related items: one for one, or up to repetition. -/
def Alike (repeats : Bool) (R : α → β → Prop) (M : Multiset α) (N : Multiset β) : Prop :=
  if repeats then (∀ a ∈ M, ∃ b ∈ N, R a b) ∧ ∀ b ∈ N, ∃ a ∈ M, R a b else Multiset.Rel R M N

variable {R : α → β → Prop} {repeats : Bool}

lemma alike_of_rel {N : Multiset β} (h : Multiset.Rel R M N) : Alike repeats R M N := by
  cases repeats with
  | false => exact h
  | true =>
      exact ⟨fun a ha => Multiset.exists_mem_of_rel_of_mem h ha, fun b hb =>
        Multiset.exists_mem_of_rel_of_mem (Multiset.rel_flip.mpr h) hb⟩

lemma alike_zero : Alike repeats R 0 0 := alike_of_rel Multiset.Rel.zero

lemma Alike.add {M M' : Multiset α} {N N' : Multiset β} (h : Alike repeats R M N)
    (h' : Alike repeats R M' N') : Alike repeats R (M + M') (N + N') := by
  cases repeats with
  | false => exact Multiset.rel_add_left.mpr ⟨N, N', h, h', rfl⟩
  | true =>
      refine ⟨fun a ha => ?_, fun b hb => ?_⟩
      · rcases Multiset.mem_add.mp ha with ha | ha
        · obtain ⟨b, hb, hR⟩ := h.1 a ha
          exact ⟨b, Multiset.mem_add.mpr (.inl hb), hR⟩
        · obtain ⟨b, hb, hR⟩ := h'.1 a ha
          exact ⟨b, Multiset.mem_add.mpr (.inr hb), hR⟩
      · rcases Multiset.mem_add.mp hb with hb | hb
        · obtain ⟨a, ha, hR⟩ := h.2 b hb
          exact ⟨a, Multiset.mem_add.mpr (.inl ha), hR⟩
        · obtain ⟨a, ha, hR⟩ := h'.2 b hb
          exact ⟨a, Multiset.mem_add.mpr (.inr ha), hR⟩

lemma Alike.flip {N : Multiset β} (h : Alike repeats R M N) :
    Alike repeats (flip R) N M := by
  cases repeats with
  | false => exact Multiset.rel_flip.mpr h
  | true => exact ⟨h.2, h.1⟩

lemma Alike.imp {S : α → β → Prop} {N : Multiset β} (h : Alike repeats R M N)
    (hRS : ∀ a b, R a b → S a b) : Alike repeats S M N := by
  cases repeats with
  | false => exact Multiset.Rel.mono h fun a _ b _ => hRS a b
  | true =>
      refine ⟨fun a ha => ?_, fun b hb => ?_⟩
      · obtain ⟨b, hb, hR⟩ := h.1 a ha
        exact ⟨b, hb, hRS a b hR⟩
      · obtain ⟨a, ha, hR⟩ := h.2 b hb
        exact ⟨a, ha, hRS a b hR⟩

lemma Alike.map_right {S : α → γ → Prop} {f : β → γ} {N : Multiset β} (h : Alike repeats R M N)
    (hf : ∀ a, ∀ b ∈ N, R a b → S a (f b)) : Alike repeats S M (N.map f) := by
  cases repeats with
  | false =>
      exact Multiset.rel_map_right.mpr (Multiset.Rel.mono h fun a _ b hb => hf a b hb)
  | true =>
      refine ⟨fun a ha => ?_, fun c hc => ?_⟩
      · obtain ⟨b, hb, hR⟩ := h.1 a ha
        exact ⟨f b, Multiset.mem_map_of_mem f hb, hf a b hb hR⟩
      · obtain ⟨b, hb, rfl⟩ := Multiset.mem_map.mp hc
        obtain ⟨a, ha, hR⟩ := h.2 b hb
        exact ⟨a, ha, hf a b hb hR⟩

/-- Bags alike one for one are alike. -/
lemma Alike.of_false {N : Multiset β} (h : Alike false R M N) : Alike repeats R M N :=
  alike_of_rel h

lemma Alike.repeated {N : Multiset β} (h : Alike repeats R M N) : Alike true R M N := by
  cases repeats with
  | false => exact alike_of_rel h
  | true => exact h

/-! ### Programs that match -/

/-- Each outcome of a program has one alike of the other. -/
def Matches (repeats : Bool) (R : α → β → Prop) (P : Multiset α → Prop) (Q : Multiset β → Prop) :
    Prop :=
  (∀ M, P M → ∃ N, Q N ∧ Alike repeats R M N) ∧ ∀ N, Q N → ∃ M, P M ∧ Alike repeats R M N

section Matches

variable {P : Multiset α → Prop} {Q : Multiset β → Prop}

lemma Matches.flip (h : Matches repeats R P Q) : Matches repeats (flip R) Q P :=
  ⟨fun N hN => by
      obtain ⟨M, hM, halike⟩ := h.2 N hN
      exact ⟨M, hM, halike.flip⟩,
    fun M hM => by
      obtain ⟨N, hN, halike⟩ := h.1 M hM
      exact ⟨N, hN, halike.flip⟩⟩

lemma Matches.imp {S : α → β → Prop} (h : Matches repeats R P Q) (hRS : ∀ a b, R a b → S a b) :
    Matches repeats S P Q :=
  ⟨fun M hM => by
      obtain ⟨N, hN, halike⟩ := h.1 M hM
      exact ⟨N, hN, halike.imp hRS⟩,
    fun N hN => by
      obtain ⟨M, hM, halike⟩ := h.2 N hN
      exact ⟨M, hM, halike.imp hRS⟩⟩

lemma Matches.of_false (h : Matches false R P Q) : Matches repeats R P Q :=
  ⟨fun M hM => by
      obtain ⟨N, hN, halike⟩ := h.1 M hM
      exact ⟨N, hN, halike.of_false⟩,
    fun N hN => by
      obtain ⟨M, hM, halike⟩ := h.2 N hN
      exact ⟨M, hM, halike.of_false⟩⟩

/-- Programs with the same outcomes. -/
lemma Matches.congr {P' : Multiset α → Prop} {Q' : Multiset β → Prop} (h : Matches repeats R P Q)
    (hP : ∀ M, P' M ↔ P M) (hQ : ∀ N, Q' N ↔ Q N) : Matches repeats R P' Q' :=
  ⟨fun M hM => by
      obtain ⟨N, hN, halike⟩ := h.1 M ((hP M).mp hM)
      exact ⟨N, (hQ N).mpr hN, halike⟩,
    fun N hN => by
      obtain ⟨M, hM, halike⟩ := h.2 N ((hQ N).mp hN)
      exact ⟨M, (hP M).mpr hM, halike⟩⟩

private lemma exists_each_of_rel {S : γ → δ → Prop} {step : α → Multiset γ → Prop}
    {step' : β → Multiset δ → Prop}
    (hstep : ∀ a b, R a b → ∀ o, step a o → ∃ o', step' b o' ∧ Alike repeats S o o')
    {M : Multiset α} {N : Multiset β} (h : Multiset.Rel R M N) :
    ∀ {O}, Each step M O → ∃ O', Each step' N O' ∧ Alike repeats S O O' := by
  induction h with
  | zero =>
      intro O hO
      rw [each_zero.mp hO]
      exact ⟨0, each_zero.mpr rfl, alike_zero⟩
  | @cons a b M N hab _ ih =>
      intro O hO
      obtain ⟨o, O₁, ho, hO₁, rfl⟩ := each_cons.mp hO
      obtain ⟨o', ho', halike⟩ := hstep a b hab o ho
      obtain ⟨O', hO', halike'⟩ := ih hO₁
      exact ⟨o' + O', each_cons.mpr ⟨o', O', ho', hO', rfl⟩, halike.add halike'⟩

/-- An operator over programs that match one for one. -/
lemma Matches.each {S : γ → δ → Prop} {step : α → Multiset γ → Prop}
    {step' : β → Multiset δ → Prop} (h : Matches false R P Q)
    (hstep : ∀ a b, R a b → Matches repeats S (step a) (step' b)) :
    Matches repeats S (fun O => ∃ M, P M ∧ Each step M O)
      (fun O => ∃ N, Q N ∧ Each step' N O) := by
  constructor
  · rintro O ⟨M, hM, hO⟩
    obtain ⟨N, hN, hrel⟩ := h.1 M hM
    obtain ⟨O', hO', halike⟩ := exists_each_of_rel (fun a b hab => (hstep a b hab).1) hrel hO
    exact ⟨O', ⟨N, hN, hO'⟩, halike⟩
  · rintro O' ⟨N, hN, hO'⟩
    obtain ⟨M, hM, hrel⟩ := h.2 N hN
    obtain ⟨O, hO, halike⟩ := exists_each_of_rel
      (fun b a hab o' ho' => by
        obtain ⟨o, ho, halike⟩ := (hstep a b hab).2 o' ho'
        exact ⟨o, ho, halike.flip⟩) (Multiset.rel_flip.mpr hrel) hO'
    exact ⟨O, ⟨M, hM, hO⟩, halike.flip⟩

private lemma alike_of_all {S : γ → δ → Prop} {step : α → Multiset γ → Prop}
    {step' : β → Multiset δ → Prop}
    (hstep : ∀ a b, R a b → ∀ o o', step a o → step' b o' → Alike true S o o')
    {M : Multiset α} {N : Multiset β} (h : Alike true R M N) {O : Multiset γ} {O' : Multiset δ}
    (hO : Each step M O) (hO' : Each step' N O') : Alike true S O O' := by
  refine ⟨fun c hc => ?_, fun d hd => ?_⟩
  · obtain ⟨a, ha, o, ho, hco⟩ := exists_of_mem_each hO hc
    obtain ⟨b, hb, hab⟩ := h.1 a ha
    obtain ⟨o', ho', hle⟩ := exists_le_of_each hO' hb
    obtain ⟨d, hd, hS⟩ := (hstep a b hab o o' ho ho').1 c hco
    exact ⟨d, Multiset.mem_of_le hle hd, hS⟩
  · obtain ⟨b, hb, o', ho', hdo⟩ := exists_of_mem_each hO' hd
    obtain ⟨a, ha, hab⟩ := h.2 b hb
    obtain ⟨o, ho, hle⟩ := exists_le_of_each hO ha
    obtain ⟨c, hc, hS⟩ := (hstep a b hab o o' ho ho').2 d hdo
    exact ⟨c, Multiset.mem_of_le hle hc, hS⟩

/-- An operator over programs that match up to repetition, where all outcomes of related items are
alike. -/
lemma Matches.each_of_all {S : γ → δ → Prop} {step : α → Multiset γ → Prop}
    {step' : β → Multiset δ → Prop} (h : Matches true R P Q)
    (hstep : ∀ a b, R a b → ∀ o o', step a o → step' b o' → Alike true S o o')
    (hsome : ∀ a, ∃ o, step a o) (hsome' : ∀ b, ∃ o, step' b o) :
    Matches true S (fun O => ∃ M, P M ∧ Each step M O) (fun O => ∃ N, Q N ∧ Each step' N O) := by
  constructor
  · rintro O ⟨M, hM, hO⟩
    obtain ⟨N, hN, halike⟩ := h.1 M hM
    obtain ⟨O', hO'⟩ := exists_each hsome' N
    exact ⟨O', ⟨N, hN, hO'⟩, alike_of_all hstep halike hO hO'⟩
  · rintro O' ⟨N, hN, hO'⟩
    obtain ⟨M, hM, halike⟩ := h.2 N hN
    obtain ⟨O, hO⟩ := exists_each hsome M
    exact ⟨O, ⟨M, hM, hO⟩, alike_of_all hstep halike hO hO'⟩

end Matches

end Verax.Lib.PossibleBags
