import Mathlib.Data.Finset.Max
import Mathlib.Data.List.Perm.Basic
import Mathlib.Data.List.Induction
import Mathlib.Tactic.Common

/-!
# Frontiers of candidates

Candidates are offered one at a time. Each has a class, its home, and a value for every use, where
known. A frontier turns a candidate away when one of its members is worth
no more in the candidate's class, and loses the members the candidate beats in theirs. From a
frontier the first candidate of least value for a use is selected.

* `not_beats_of_mem_run`: no member of a frontier beats another.
* `exists_mem_run`: of every candidate offered, a member is left that stands for it.
* `selected_iff`: every order of the offers selects the same candidates if and only if for every use
  some candidate that no other covers is worth less than all that no such candidate beats.
-/

namespace Verax.Lib.Frontiers

/-! ### Selection -/

section Selection

variable {α V : Type*} [LinearOrder V] {value : α → Option V} {l : List α} {a : α} {v : V}

/-- The better of the best candidate so far and the next one. -/
def better (value : α → Option V) (best : Option (α × V)) (a : α) : Option (α × V) :=
  match value a, best with
  | none, _ => best
  | some v, none => some (a, v)
  | some v, some (b, w) => if v < w then some (a, v) else some (b, w)

/-- The first candidate of least value, with its value. -/
def firstLeast (value : α → Option V) (l : List α) : Option (α × V) := l.foldl (better value) none

lemma firstLeast_concat (value : α → Option V) (l : List α) (a : α) :
    firstLeast value (l ++ [a]) = better value (firstLeast value l) a := by
  rw [firstLeast, List.foldl_append]
  rfl

/-- Nothing is selected where nothing has a value. -/
lemma firstLeast_eq_none (h : firstLeast value l = none) : ∀ a ∈ l, value a = none := by
  induction l using List.reverseRecOn with
  | nil => exact fun a ha => absurd ha List.not_mem_nil
  | append_singleton l c ih =>
    rw [firstLeast_concat] at h
    have hboth : firstLeast value l = none ∧ value c = none := by
      unfold better at h
      split at h
      · exact ⟨h, by assumption⟩
      · cases h
      · split at h <;> cases h
    intro a ha
    rcases List.mem_append.mp ha with ha | ha
    · exact ih hboth.1 a ha
    · exact List.mem_singleton.mp ha ▸ hboth.2

/-- The selected candidate is one of the list, and none has a lower value. -/
lemma firstLeast_eq_some (h : firstLeast value l = some (a, v)) :
    a ∈ l ∧ value a = some v ∧ ∀ b ∈ l, ∀ w ∈ value b, v ≤ w := by
  induction l using List.reverseRecOn generalizing a v with
  | nil => cases h
  | append_singleton l c ih =>
    rw [firstLeast_concat] at h
    have hcons : ∀ {P : α → Prop}, (∀ b ∈ l, P b) → P c → ∀ b ∈ l ++ [c], P b := by
      intro P hl hc b hb
      rcases List.mem_append.mp hb with hb | hb
      · exact hl b hb
      · exact List.mem_singleton.mp hb ▸ hc
    unfold better at h
    split at h
    · rename_i hc
      obtain ⟨hmem, hvalue, hle⟩ := ih h
      exact ⟨List.mem_append_left _ hmem, hvalue, hcons hle (by simp [hc])⟩
    · rename_i w hc hl
      cases h
      refine ⟨by simp, hc, hcons (fun b hb w' hw' => ?_) (by simp [hc])⟩
      rw [firstLeast_eq_none hl b hb] at hw'
      cases hw'
    · rename_i w b w' hc hl
      obtain ⟨hmem, hvalue, hle⟩ := ih hl
      split at h
      · rename_i hlt
        cases h
        exact ⟨by simp, hc, hcons (fun b hb x hx => hlt.le.trans (hle b hb x hx)) (by simp [hc])⟩
      · rename_i hlt
        cases h
        exact ⟨List.mem_append_left _ hmem, hvalue, hcons hle (by simpa [hc] using hlt)⟩

/-- A first candidate of least value is the one selected. -/
lemma firstLeast_cons (ha : value a = some v) (hle : ∀ b ∈ l, ∀ w ∈ value b, v ≤ w) :
    firstLeast value (a :: l) = some (a, v) := by
  induction l using List.reverseRecOn with
  | nil => simp [firstLeast, better, ha]
  | append_singleton l c ih =>
    rw [← List.cons_append, firstLeast_concat, ih fun b hb => hle b (List.mem_append_left _ hb)]
    have hc := hle c (by simp)
    unfold better
    rcases hvalue : value c with - | w
    · rfl
    · exact if_neg (hc w hvalue).not_gt

end Selection

/-! ### Offers -/

/-- Candidates with the values they have for each use and the class they are at home in. -/
structure Scale (α ι V : Type*) [LinearOrder V] where
  value : ι → α → Option V
  home : α → ι
  own : α → V
  value_home : ∀ a, value (home a) a = some (own a)

namespace Scale

variable {α ι V : Type*} [LinearOrder V] (s : Scale α ι V)

/-- A candidate is worth no more than another in the other's class. -/
def covers (e x : α) : Bool := (s.value (s.home x) e).any fun v => decide (v ≤ s.own x)

/-- A candidate is worth less than another in the other's class. -/
def beats (e x : α) : Bool := (s.value (s.home x) e).any fun v => decide (v < s.own x)

/-- A frontier after one more candidate was offered. -/
def offer (frontier : List α) (x : α) : List α :=
  if frontier.any (s.covers · x) then frontier
  else (frontier.filter fun existing => !s.beats x existing) ++ [x]

/-- The frontier after candidates were offered in turn. -/
def run (offered : List α) : List α := offered.foldl s.offer []

variable {s} {e x : α}

lemma covers_iff : s.covers e x = true ↔ ∃ v, s.value (s.home x) e = some v ∧ v ≤ s.own x := by
  simp [covers, Option.any_eq_true]

lemma beats_iff : s.beats e x = true ↔ ∃ v, s.value (s.home x) e = some v ∧ v < s.own x := by
  simp [beats, Option.any_eq_true]

lemma covers_of_beats (h : s.beats e x = true) : s.covers e x = true := by
  obtain ⟨v, hv, hlt⟩ := beats_iff.mp h
  exact covers_iff.mpr ⟨v, hv, hlt.le⟩

@[simp] lemma beats_self (x : α) : s.beats x x = false := by
  rw [← Bool.not_eq_true, beats_iff]
  rintro ⟨v, hv, hlt⟩
  rw [s.value_home, Option.some.injEq] at hv
  exact hlt.ne hv.symm

/-- A candidate that is worth least at home is worth less there than any it beats. -/
lemma own_lt_of_beats (hown : ∀ i v, s.value i e = some v → s.own e ≤ v) (h : s.beats e x = true) :
    s.own e < s.own x := by
  obtain ⟨v, hv, hlt⟩ := beats_iff.mp h
  exact (hown _ _ hv).trans_lt hlt

/-! ### What an offer leaves -/

lemma offer_of_covered {frontier : List α} (he : e ∈ frontier) (h : s.covers e x = true) :
    s.offer frontier x = frontier :=
  if_pos (List.any_eq_true.mpr ⟨e, he, h⟩)

lemma offer_of_uncovered {frontier : List α} (h : ∀ e ∈ frontier, ¬ s.covers e x = true) :
    s.offer frontier x = (frontier.filter fun existing => !s.beats x existing) ++ [x] := by
  refine if_neg fun hany => ?_
  obtain ⟨e, he, hcovers⟩ := List.any_eq_true.mp hany
  exact h e he hcovers

/-- An offer is turned away or taken in. -/
lemma offer_cases (s : Scale α ι V) (frontier : List α) (x : α) :
    (∃ e ∈ frontier, s.covers e x = true ∧ s.offer frontier x = frontier) ∨
      (∀ e ∈ frontier, ¬ s.covers e x = true) ∧
        s.offer frontier x = (frontier.filter fun existing => !s.beats x existing) ++ [x] := by
  by_cases h : ∃ e ∈ frontier, s.covers e x = true
  · obtain ⟨e, he, hcovers⟩ := h
    exact Or.inl ⟨e, he, hcovers, offer_of_covered he hcovers⟩
  · have h' : ∀ e ∈ frontier, ¬ s.covers e x = true := fun e he hcovers => h ⟨e, he, hcovers⟩
    exact Or.inr ⟨h', offer_of_uncovered h'⟩

lemma mem_offer {frontier : List α} {a : α} (h : a ∈ s.offer frontier x) :
    a ∈ frontier ∨ a = x := by
  rcases s.offer_cases frontier x with ⟨-, -, -, heq⟩ | ⟨-, heq⟩
  · exact Or.inl (heq ▸ h)
  · rw [heq, List.mem_append, List.mem_singleton] at h
    exact h.imp_left List.mem_of_mem_filter

lemma mem_foldl_offer : ∀ {l frontier : List α} {a : α}, a ∈ l.foldl s.offer frontier →
    a ∈ frontier ∨ a ∈ l
  | [], _, _, h => Or.inl h
  | x :: l, frontier, a, h => by
    rcases mem_foldl_offer (l := l) h with h | h
    · rcases mem_offer h with h | rfl
      · exact Or.inl h
      · exact Or.inr List.mem_cons_self
    · exact Or.inr (List.mem_cons_of_mem _ h)

/-- A member of the frontier was offered. -/
lemma mem_of_mem_run {offered : List α} {a : α} (h : a ∈ s.run offered) : a ∈ offered :=
  (mem_foldl_offer h).resolve_left List.not_mem_nil

/-- What holds of the empty frontier and is kept by offers holds of every frontier. -/
lemma run_induction {P : List α → Prop} {offered : List α} (hnil : P [])
    (hoffer : ∀ frontier, ∀ x ∈ offered, P frontier → P (s.offer frontier x)) :
    P (s.run offered) := by
  have hfold : ∀ l frontier, l ⊆ offered → P frontier → P (l.foldl s.offer frontier) := by
    intro l
    induction l with
    | nil => exact fun _ _ h => h
    | cons x l ih =>
      intro frontier hl h
      exact ih _ (fun y hy => hl (List.mem_cons_of_mem _ hy)) (hoffer _ x (hl List.mem_cons_self) h)
  exact hfold offered [] (List.Subset.refl _) hnil

/-- **No member of a frontier beats another.** -/
theorem not_beats_of_mem_run {offered : List α} :
    ∀ p ∈ s.run offered, ∀ q ∈ s.run offered, ¬ s.beats p q = true := by
  refine s.run_induction (P := fun f => ∀ p ∈ f, ∀ q ∈ f, ¬ s.beats p q = true) (by simp) ?_
  intro frontier x _ h
  rcases s.offer_cases frontier x with ⟨-, -, -, heq⟩ | ⟨huncovered, heq⟩
  · rwa [heq]
  · rw [heq]
    intro p hp q hq hbeats
    simp only [List.mem_append, List.mem_filter, List.mem_singleton, Bool.not_eq_true'] at hp hq
    rcases hp with ⟨hp, -⟩ | rfl <;> rcases hq with ⟨hq, hkept⟩ | rfl
    · exact h p hp q hq hbeats
    · exact huncovered p hp (covers_of_beats hbeats)
    · rw [hkept] at hbeats
      cases hbeats
    · rw [beats_self] at hbeats
      cases hbeats

/-- **Of every candidate offered, a member of the frontier stands for it**, for any preorder that
holds wherever a candidate covers another. -/
theorem exists_mem_run {R : α → α → Prop} (hrefl : ∀ a, R a a)
    (htrans : ∀ a b c, R a b → R b c → R a c) {offered : List α}
    (hcovers : ∀ e ∈ offered, ∀ x ∈ offered, s.covers e x = true → R e x) :
    ∀ x ∈ offered, ∃ p ∈ s.run offered, R p x := by
  have hstep : ∀ frontier ⊆ offered, ∀ x ∈ offered,
      ∀ y, (y = x ∨ ∃ p ∈ frontier, R p y) → ∃ p ∈ s.offer frontier x, R p y := by
    intro frontier hsub x hx y hy
    rcases s.offer_cases frontier x with ⟨e, he, hcov, heq⟩ | ⟨-, heq⟩
    · rw [heq]
      rcases hy with rfl | hy
      · exact ⟨e, he, hcovers e (hsub he) y hx hcov⟩
      · exact hy
    · rw [heq]
      have hlast : x ∈ (frontier.filter fun existing => !s.beats x existing) ++ [x] := by simp
      rcases hy with rfl | ⟨p, hp, hR⟩
      · exact ⟨y, hlast, hrefl y⟩
      · by_cases hbeats : s.beats x p = true
        · exact ⟨x, hlast, htrans _ _ _ (hcovers x hx p (hsub hp) (covers_of_beats hbeats)) hR⟩
        · exact ⟨p, by simp [hp, hbeats], hR⟩
  have hfold : ∀ l frontier, l ⊆ offered → frontier ⊆ offered →
      ∀ y, (y ∈ l ∨ ∃ p ∈ frontier, R p y) → ∃ p ∈ l.foldl s.offer frontier, R p y := by
    intro l
    induction l with
    | nil => exact fun _ _ _ y hy => hy.resolve_left List.not_mem_nil
    | cons x l ih =>
      intro frontier hl hsub y hy
      have hx := hl List.mem_cons_self
      refine ih _ (fun z hz => hl (List.mem_cons_of_mem _ hz)) ?_ y ?_
      · intro z hz
        rcases mem_offer hz with hz | rfl
        · exact hsub hz
        · exact hx
      · rw [List.mem_cons, or_assoc] at hy
        rcases hy with rfl | hy | hy
        · exact Or.inr (hstep _ hsub y hx y (Or.inl rfl))
        · exact Or.inl hy
        · exact Or.inr (hstep _ hsub x hx y (Or.inr hy))
  intro x hx
  exact hfold offered [] (List.Subset.refl _) (List.nil_subset _) x (Or.inl hx)

/-! ### Candidates that no other covers -/

/-- A candidate of the offered ones that no other covers. -/
def Uncovered (s : Scale α ι V) (offered : List α) (w : α) : Prop :=
  w ∈ offered ∧ ∀ e ∈ offered, e ≠ w → ¬ s.covers e w = true

variable {offered : List α}

lemma Uncovered.perm {reordered : List α} {w : α} (h : s.Uncovered offered w)
    (hperm : offered.Perm reordered) : s.Uncovered reordered w :=
  ⟨hperm.mem_iff.mp h.1, fun e he => h.2 e (hperm.mem_iff.mpr he)⟩

/-- An offer leaves an uncovered member in the frontier. -/
lemma Uncovered.mem_offer {frontier : List α} {w : α} (h : s.Uncovered offered w) (hx : x ∈ offered)
    (hw : w ∈ frontier) : w ∈ s.offer frontier x := by
  rcases s.offer_cases frontier x with ⟨-, -, -, heq⟩ | ⟨-, heq⟩
  · rwa [heq]
  · have hkept : ¬ s.beats x w = true := by
      intro hbeats
      by_cases hxw : x = w
      · rw [hxw, beats_self] at hbeats
        cases hbeats
      · exact h.2 x hx hxw (covers_of_beats hbeats)
    rw [heq]
    simp [hw, hkept]

/-- An uncovered candidate is taken in, where it is not in yet. -/
lemma Uncovered.mem_offer_self {frontier : List α} {w : α} (h : s.Uncovered offered w)
    (hsub : frontier ⊆ offered) : w ∈ s.offer frontier w := by
  rcases s.offer_cases frontier w with ⟨e, he, hcovers, heq⟩ | ⟨-, heq⟩
  · obtain rfl : e = w := by_contra fun hne => h.2 e (hsub he) hne hcovers
    rwa [heq]
  · rw [heq]
    simp

lemma Uncovered.mem_foldl_offer {w : α} (h : s.Uncovered offered w) : ∀ {l frontier : List α},
    l ⊆ offered → frontier ⊆ offered → w ∈ frontier ∨ w ∈ l → w ∈ l.foldl s.offer frontier
  | [], _, _, _, hw => hw.resolve_right List.not_mem_nil
  | x :: l, frontier, hl, hsub, hw => by
    have hx := hl List.mem_cons_self
    have hsub' : s.offer frontier x ⊆ offered := by
      intro z hz
      rcases Scale.mem_offer hz with hz | rfl
      · exact hsub hz
      · exact hx
    refine h.mem_foldl_offer (l := l) (fun z hz => hl (List.mem_cons_of_mem _ hz)) hsub' ?_
    rw [List.mem_cons] at hw
    rcases hw with hw | rfl | hw
    · exact Or.inl (h.mem_offer hx hw)
    · exact Or.inl (h.mem_offer_self hsub)
    · exact Or.inr hw

/-- **A candidate that no other covers is in the frontier of every order.** -/
theorem Uncovered.mem_run {w : α} (h : s.Uncovered offered w) : w ∈ s.run offered :=
  h.mem_foldl_offer (List.Subset.refl _) (List.nil_subset _) (Or.inr h.1)

/-- A candidate that such a one beats is in the frontier of no order. -/
lemma Uncovered.not_mem_run {u q : α} (h : s.Uncovered offered u) (hbeats : s.beats u q = true) :
    q ∉ s.run offered :=
  fun hq => not_beats_of_mem_run u h.mem_run q hq hbeats

/-- What is covered from the start stays out. -/
lemma foldl_offer_replicate {w : α} {frontier : List α} (he : e ∈ frontier)
    (hcovers : s.covers e w = true) : ∀ {l : List α}, (∀ x ∈ l, x = w) →
      l.foldl s.offer frontier = frontier
  | [], _ => rfl
  | x :: l, hl => by
    obtain rfl := hl x List.mem_cons_self
    rw [List.foldl_cons, offer_of_covered he hcovers]
    exact foldl_offer_replicate he hcovers fun y hy => hl y (List.mem_cons_of_mem _ hy)

/-- A candidate that another covers is left out in some order. -/
lemma exists_perm_not_mem_run {w : α} (he : e ∈ offered) (hne : e ≠ w)
    (hcovers : s.covers e w = true) :
    ∃ reordered, offered.Perm reordered ∧ w ∉ s.run reordered := by
  classical
  obtain ⟨before, after, rfl⟩ := List.append_of_mem he
  let rest := before ++ after
  let copies := rest.filter fun x => decide (x = w)
  let others := rest.filter fun x => !decide (x = w)
  have hcopies : ∀ x ∈ copies, x = w := fun x hx => by simpa using (List.mem_filter.mp hx).2
  have hothers : w ∉ others := fun hw => by simpa using (List.mem_filter.mp hw).2
  refine ⟨e :: (copies ++ others), ?_, ?_⟩
  · exact List.perm_middle.trans ((List.filter_append_perm _ rest).symm.cons e)
  · intro hw
    have hfirst : s.offer [] e = [e] := rfl
    rw [run, List.foldl_cons, hfirst, List.foldl_append,
      foldl_offer_replicate (List.mem_singleton_self e) hcovers hcopies] at hw
    rcases mem_foldl_offer hw with hw | hw
    · exact hne (List.mem_singleton.mp hw).symm
    · exact hothers hw

/-- The first member of a frontier stays first as long as what beats it is turned away. -/
lemma foldl_offer_cons {q : α} : ∀ {l frontier : List α}, l ⊆ offered → q :: frontier ⊆ offered →
    (∀ x ∈ l, s.beats x q = true →
      ∃ u ∈ q :: frontier, s.Uncovered offered u ∧ s.covers u x = true) →
    ∃ frontier', l.foldl s.offer (q :: frontier) = q :: frontier'
  | [], frontier, _, _, _ => ⟨frontier, rfl⟩
  | x :: l, frontier, hl, hsub, hturned => by
    have hx := hl List.mem_cons_self
    have hl' : l ⊆ offered := fun z hz => hl (List.mem_cons_of_mem _ hz)
    rw [List.foldl_cons]
    obtain ⟨frontier', heq⟩ : ∃ frontier', s.offer (q :: frontier) x = q :: frontier' := by
      rcases s.offer_cases (q :: frontier) x with ⟨-, -, -, heq⟩ | ⟨huncovered, heq⟩
      · exact ⟨frontier, heq⟩
      · have hkept : ¬ s.beats x q = true := by
          intro hbeats
          obtain ⟨u, hu, -, hcovers⟩ := hturned x List.mem_cons_self hbeats
          exact huncovered u hu hcovers
        exact ⟨_, by rw [heq, List.filter_cons_of_pos (by simp [hkept]), List.cons_append]⟩
    have hsub' : q :: frontier' ⊆ offered := by
      intro z hz
      rcases Scale.mem_offer (heq ▸ hz) with hz | rfl
      · exact hsub hz
      · exact hx
    rw [heq]
    refine foldl_offer_cons hl' hsub' fun y hy hbeats => ?_
    obtain ⟨u, hu, huncovered, hcovers⟩ := hturned y (List.mem_cons_of_mem _ hy) hbeats
    exact ⟨u, heq ▸ huncovered.mem_offer hx hu, huncovered, hcovers⟩

/-- A candidate comes first in the frontier of some order, where no uncovered one beats it and the
uncovered ones cover whatever beats it. -/
lemma exists_perm_run_cons {q : α} (hq : q ∈ offered)
    (hbeats : ∀ u, s.Uncovered offered u → ¬ s.beats u q = true)
    (hcovered : ∀ x ∈ offered, s.beats x q = true →
      ∃ u, s.Uncovered offered u ∧ s.covers u x = true) :
    ∃ reordered frontier, offered.Perm reordered ∧ s.run reordered = q :: frontier := by
  classical
  obtain ⟨before, after, hsplit⟩ := List.append_of_mem hq
  let rest := before ++ after
  have hperm : offered.Perm (q :: rest) := hsplit ▸ List.perm_middle
  have hrest : rest ⊆ offered := fun z hz => hperm.mem_iff.mpr (List.mem_cons_of_mem _ hz)
  let uncovered := rest.filter fun x => decide (s.Uncovered offered x)
  let others := rest.filter fun x => !decide (s.Uncovered offered x)
  have hmem : ∀ u ∈ uncovered, s.Uncovered offered u := fun u hu => by
    simpa using (List.mem_filter.mp hu).2
  have hsubUncovered : uncovered ⊆ offered := fun z hz => hrest (List.mem_of_mem_filter hz)
  have hsubFirst : ([q] : List α) ⊆ offered := fun z hz => List.mem_singleton.mp hz ▸ hq
  obtain ⟨frontier, hfirst⟩ := s.foldl_offer_cons hsubUncovered hsubFirst
    fun x hx h => absurd h (hbeats x (hmem x hx))
  have hsub : q :: frontier ⊆ offered := by
    intro z hz
    rcases mem_foldl_offer (hfirst ▸ hz) with hz | hz
    · exact hsubFirst hz
    · exact hsubUncovered hz
  have hall : ∀ u, s.Uncovered offered u → u ∈ q :: frontier := by
    intro u hu
    rw [← hfirst]
    refine hu.mem_foldl_offer hsubUncovered hsubFirst ?_
    rcases List.mem_cons.mp (hperm.mem_iff.mp hu.1) with rfl | hmemRest
    · exact Or.inl List.mem_cons_self
    · exact Or.inr (List.mem_filter.mpr ⟨hmemRest, by simpa using hu⟩)
  obtain ⟨frontier', hsecond⟩ := s.foldl_offer_cons (l := others)
    (fun z hz => hrest (List.mem_of_mem_filter hz)) hsub fun x hx h => by
      obtain ⟨u, hu, hcovers⟩ := hcovered x (hrest (List.mem_of_mem_filter hx)) h
      exact ⟨u, hall u hu, hu, hcovers⟩
  refine ⟨q :: (uncovered ++ others), frontier',
    hperm.trans ((List.filter_append_perm _ rest).symm.cons q), ?_⟩
  have hone : s.offer [] q = [q] := rfl
  rw [run, List.foldl_cons, hone, List.foldl_append, hfirst, hsecond]

/-! ### Every order -/

/-- For a use, some uncovered candidate is worth less than every other that no uncovered one beats;
or no candidate has a value. -/
def Settled (s : Scale α ι V) (offered : List α) (i : ι) : Prop :=
  (∀ a ∈ offered, s.value i a = none) ∨
    ∃ w v, s.Uncovered offered w ∧ s.value i w = some v ∧
      ∀ q ∈ offered, q ≠ w → ∀ x ∈ s.value i q, x ≤ v →
        ∃ u, s.Uncovered offered u ∧ s.beats u q = true

/-- The candidate selected for a use from the frontier of the offered candidates. -/
def selected (s : Scale α ι V) (offered : List α) (i : ι) : Option (α × V) :=
  firstLeast (s.value i) (s.run offered)

/-- A settled use selects its uncovered candidate. -/
lemma selected_of_settled {i : ι} {w : α} {v : V} (hw : s.Uncovered offered w)
    (hvalue : s.value i w = some v)
    (hbeaten : ∀ q ∈ offered, q ≠ w → ∀ x ∈ s.value i q, x ≤ v →
      ∃ u, s.Uncovered offered u ∧ s.beats u q = true) : s.selected offered i = some (w, v) := by
  rcases heq : s.selected offered i with - | ⟨a, x⟩
  · rw [firstLeast_eq_none heq w hw.mem_run] at hvalue
    cases hvalue
  · obtain ⟨ha, hx, hle⟩ := firstLeast_eq_some heq
    have haw : a = w := by
      by_contra hne
      obtain ⟨u, hu, hbeats⟩ :=
        hbeaten a (mem_of_mem_run ha) hne x hx (hle w hw.mem_run v hvalue)
      exact hu.not_mem_run hbeats ha
    subst haw
    rw [hx, Option.some.injEq] at hvalue
    rw [hvalue]

/-- Where every order selects the same candidate, no other covers it. -/
lemma uncovered_of_selected {i : ι} {w : α} {v : V}
    (h : ∀ reordered, offered.Perm reordered → s.selected reordered i = some (w, v)) :
    s.Uncovered offered w := by
  have hmem : ∀ reordered, offered.Perm reordered → w ∈ s.run reordered :=
    fun reordered hperm => (firstLeast_eq_some (h reordered hperm)).1
  refine ⟨mem_of_mem_run (hmem offered (List.Perm.refl _)), fun e he hne hcovers => ?_⟩
  obtain ⟨reordered, hperm, hnot⟩ := exists_perm_not_mem_run he hne hcovers
  exact hnot (hmem reordered hperm)

/-- Where every order selects the same candidates, an uncovered one beats every other candidate
worth no more than the selected one. By induction on what the candidate is worth at home: whatever
beats it is worth less there. -/
lemma beaten_of_selected {answer : ι → Option (α × V)}
    (hown : ∀ a ∈ offered, ∀ i v, s.value i a = some v → s.own a ≤ v)
    (h : ∀ i reordered, offered.Perm reordered → s.selected reordered i = answer i)
    (hknown : ∀ i, (∃ a ∈ offered, (s.value i a).isSome) → (answer i).isSome) :
    ∀ q ∈ offered, ∀ i w v, answer i = some (w, v) → q ≠ w → ∀ x ∈ s.value i q, x ≤ v →
      ∃ u, s.Uncovered offered u ∧ s.beats u q = true := by
  classical
  by_contra hcontra
  push Not at hcontra
  let wrong : Finset α := offered.toFinset.filter fun q => ∃ i w v, answer i = some (w, v) ∧ q ≠ w ∧
    (∃ x ∈ s.value i q, x ≤ v) ∧ ∀ u, s.Uncovered offered u → ¬ s.beats u q = true
  have hmemWrong : ∀ q, q ∈ wrong ↔ q ∈ offered ∧ ∃ i w v, answer i = some (w, v) ∧ q ≠ w ∧
      (∃ x ∈ s.value i q, x ≤ v) ∧ ∀ u, s.Uncovered offered u → ¬ s.beats u q = true := by
    intro q
    simp [wrong]
  have hne : wrong.Nonempty := by
    obtain ⟨q, hq, i, w, v, ha, hqw, x, hx, hle, hnone⟩ := hcontra
    refine ⟨q, (hmemWrong q).mpr ⟨hq, i, w, v, ha, hqw, ⟨x, hx, hle⟩, ?_⟩⟩
    intro u hu
    simpa using hnone u hu
  obtain ⟨q, hq, hleast⟩ := wrong.exists_min_image s.own hne
  obtain ⟨hq, i, w, v, ha, hqw, ⟨x, hx, hle⟩, hnone⟩ := (hmemWrong q).mp hq
  have hcovered : ∀ y ∈ offered, s.beats y q = true →
      ∃ u, s.Uncovered offered u ∧ s.covers u y = true := by
    intro y hy hbeats
    obtain ⟨⟨w', v'⟩, ha'⟩ := Option.isSome_iff_exists.mp
      (hknown (s.home y) ⟨y, hy, by rw [s.value_home]; rfl⟩)
    have huncovered : s.Uncovered offered w' :=
      uncovered_of_selected fun reordered hperm => (h _ _ hperm).trans ha'
    have hvalue : s.value (s.home y) w' = some v' :=
      (firstLeast_eq_some ((h _ _ (List.Perm.refl _)).trans ha')).2.1
    by_cases hhome : v' ≤ s.own y
    · exact ⟨w', huncovered, covers_iff.mpr ⟨v', hvalue, hhome⟩⟩
    · by_contra hnot
      have hyw : y ≠ w' := by
        rintro rfl
        rw [s.value_home, Option.some.injEq] at hvalue
        exact hhome hvalue.symm.le
      have hywrong : y ∈ wrong := (hmemWrong y).mpr ⟨hy, s.home y, w', v', ha', hyw,
        ⟨_, s.value_home y, (not_le.mp hhome).le⟩,
        fun u hu hu' => hnot ⟨u, hu, covers_of_beats hu'⟩⟩
      exact (hleast y hywrong).not_gt (own_lt_of_beats (hown y hy) hbeats)
  obtain ⟨reordered, frontier, hperm, hrun⟩ := exists_perm_run_cons hq hnone hcovered
  have hselected := (h i reordered hperm).trans ha
  have hall := (firstLeast_eq_some hselected).2.2
  rw [selected, hrun] at hselected
  rw [hrun] at hall
  have hfirst : firstLeast (s.value i) (q :: frontier) = some (q, x) :=
    firstLeast_cons hx fun b hb y hy => hle.trans (hall b (List.mem_cons_of_mem _ hb) y hy)
  rw [hfirst] at hselected
  cases hselected
  exact hqw rfl

/-- **Every order of the offers selects the same candidates iff every use is settled**, where
candidates are worth least at home and have a value wherever one they cover has. -/
theorem selected_iff (hown : ∀ a ∈ offered, ∀ i v, s.value i a = some v → s.own a ≤ v)
    (hknown : ∀ e ∈ offered, ∀ x ∈ offered, s.covers e x = true →
      ∀ i, (s.value i x).isSome → (s.value i e).isSome) :
    (∀ i reordered, offered.Perm reordered → s.selected reordered i = s.selected offered i) ↔
      ∀ i, s.Settled offered i := by
  constructor
  · intro h i
    have hsome : ∀ i, (∃ a ∈ offered, (s.value i a).isSome) → (s.selected offered i).isSome := by
      rintro i ⟨a, ha, hvalue⟩
      obtain ⟨p, hp, hR⟩ := s.exists_mem_run
        (R := fun e x => ∀ i, (s.value i x).isSome → (s.value i e).isSome) (fun _ _ h => h)
        (fun _ _ _ h₁ h₂ i h => h₁ i (h₂ i h)) hknown a ha
      rcases heq : s.selected offered i with - | best
      · have hnone := hR i hvalue
        rw [firstLeast_eq_none heq p hp] at hnone
        cases hnone
      · rfl
    rcases heq : s.selected offered i with - | ⟨w, v⟩
    · refine Or.inl fun a ha => ?_
      by_contra hvalue
      have hselected := hsome i ⟨a, ha, Option.isSome_iff_ne_none.mpr hvalue⟩
      rw [heq] at hselected
      cases hselected
    · refine Or.inr ⟨w, v, uncovered_of_selected fun reordered hperm => (h i _ hperm).trans heq,
        (firstLeast_eq_some heq).2.1, fun q hq hne x hx hle => ?_⟩
      exact beaten_of_selected hown h hsome q hq i w v heq hne x hx hle
  · intro h i reordered hperm
    rcases h i with hnone | ⟨w, v, hw, hvalue, hbeaten⟩
    · have hall : ∀ l, offered.Perm l → s.selected l i = none := by
        intro l hl
        rcases heq : s.selected l i with - | ⟨a, x⟩
        · rfl
        · obtain ⟨ha, hx, -⟩ := firstLeast_eq_some heq
          rw [hnone a (hl.mem_iff.mpr (mem_of_mem_run ha))] at hx
          cases hx
      rw [hall reordered hperm, hall offered (List.Perm.refl _)]
    · rw [selected_of_settled hw hvalue hbeaten]
      refine selected_of_settled (hw.perm hperm) hvalue fun q hq hne x hx hle => ?_
      obtain ⟨u, hu, hbeats⟩ := hbeaten q (hperm.mem_iff.mpr hq) hne x hx hle
      exact ⟨u, hu.perm hperm, hbeats⟩

end Scale

end Verax.Lib.Frontiers
