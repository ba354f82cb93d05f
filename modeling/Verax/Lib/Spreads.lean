import Mathlib.Algebra.BigOperators.Group.Finset.Basic
import Mathlib.Algebra.BigOperators.Group.Finset.Piecewise
import Mathlib.Algebra.BigOperators.Ring.Finset
import Mathlib.Algebra.Order.BigOperators.Group.Finset
import Mathlib.Algebra.Order.Group.Multiset
import Mathlib.Data.Fintype.Basic
import Verax.Lib.BagJoin

/-!
# Bags spread over tasks

A bag whose items lie on several tasks, as a bag for each task.

* `gathered`: all items together; `gathered_hom`, operators that treat items on their own may run on
  each task.
* `eq_filter_of_placed`: a spread whose items each lie where a function says is known by its items.
* `Shared`: a spread that shows every task the items it asks for, and none that are not there.
-/

namespace Verax.Lib.Spreads

variable {τ α β : Type*} [Fintype τ]

/-- The items of all tasks. -/
def gathered (S : τ → Multiset α) : Multiset α := ∑ t, S t

variable {S : τ → Multiset α}

lemma mem_gathered {a : α} : a ∈ gathered S ↔ ∃ t, a ∈ S t := by
  simp [gathered, Multiset.mem_sum]

/-- An operator that treats items on their own may run on each task. -/
lemma gathered_hom (f : Multiset α →+ Multiset β) (S : τ → Multiset α) :
    gathered (fun t => f (S t)) = f (gathered S) := (map_sum f S Finset.univ).symm

lemma gathered_filter (p : α → Prop) [DecidablePred p] (S : τ → Multiset α) :
    gathered (fun t => (S t).filter p) = (gathered S).filter p :=
  gathered_hom ⟨⟨Multiset.filter p, Multiset.filter_zero p⟩, Multiset.filter_add p⟩ S

lemma gathered_bind (f : α → Multiset β) (S : τ → Multiset α) :
    gathered (fun t => (S t).bind f) = (gathered S).bind f :=
  gathered_hom ⟨⟨fun M => M.bind f, Multiset.zero_bind f⟩, fun M N => Multiset.add_bind M N f⟩ S

/-- All items lie on one task. -/
lemma gathered_of_home {home : τ} (h : ∀ t, t ≠ home → S t = 0) : gathered S = S home :=
  Finset.sum_eq_single home (fun t _ ht => h t ht) fun ht => absurd (Finset.mem_univ home) ht

/-! ### Joins on each task -/

section joins

variable {κ : Type*} {L : τ → Multiset α} {R : τ → Multiset β} {on : α → β → Bool}

/-- What an item asks for, when only its own task has it. -/
lemma filter_gathered {p : α → Prop} [DecidablePred p] {t : τ} (h : ∀ s, ∀ a ∈ S s, p a → s = t) :
    (gathered S).filter p = (S t).filter p := by
  rw [← gathered_filter]
  exact gathered_of_home fun s hs => Multiset.filter_eq_nil.mpr fun a ha hp => hs (h s a ha hp)

/-- Items that match lie on one task. -/
def Together (on : α → β → Bool) (L : τ → Multiset α) (R : τ → Multiset β) : Prop :=
  ∀ t s, ∀ a ∈ L t, ∀ b ∈ R s, on a b = true → s = t

omit [Fintype τ] in
lemma Together.flip (h : Together on L R) : Together (flip on) R L :=
  fun s t b hb a ha hon => (h t s a ha b hb hon).symm

lemma Together.hasPartner (h : Together on L R) {t : τ} {a : α} (ha : a ∈ L t) :
    BagJoin.hasPartner on (gathered R) a = BagJoin.hasPartner on (R t) a := by
  rw [Bool.eq_iff_iff, BagJoin.hasPartner_iff, BagJoin.hasPartner_iff]
  constructor
  · rintro ⟨b, hb, hon⟩
    obtain ⟨s, hs⟩ := mem_gathered.mp hb
    exact ⟨b, h t s a ha b hs hon ▸ hs, hon⟩
  · rintro ⟨b, hb, hon⟩
    exact ⟨b, mem_gathered.mpr ⟨t, hb⟩, hon⟩

/-- The pairs that match are found task by task. -/
lemma Together.inner (h : Together on L R) :
    gathered (fun t => BagJoin.inner on (L t) (R t)) =
      BagJoin.inner on (gathered L) (gathered R) := by
  rw [BagJoin.inner, ← gathered_bind]
  refine congrArg gathered (funext fun t => Multiset.bind_congr fun a ha => ?_)
  rw [filter_gathered fun s b hb hon => h t s a ha b hb hon]

omit [Fintype τ] in
/-- A row is among those of a bag if it is among some of them that have a row for each answer. -/
lemma isAmong_of_subset {keys : α → β → Truth} {filter : α → β → Bool} {B B' : Multiset β} {a : α}
    (hsub : ∀ b ∈ B', b ∈ B) (hanswers : ∀ b ∈ B, filter a b = true → keys a b ≠ some false →
      ∃ b' ∈ B', filter a b' = true ∧ keys a b' = keys a b) :
    BagJoin.isAmong keys filter B' a = BagJoin.isAmong keys filter B a := by
  have hpartner : ∀ answer : Truth, answer ≠ some false →
      BagJoin.hasPartner (fun a b => filter a b && keys a b = answer) B' a =
        BagJoin.hasPartner (fun a b => filter a b && keys a b = answer) B a := by
    intro answer hne
    rw [Bool.eq_iff_iff, BagJoin.hasPartner_iff, BagJoin.hasPartner_iff]
    simp only [Bool.and_eq_true, decide_eq_true_eq]
    constructor
    · rintro ⟨b, hb, hon⟩
      exact ⟨b, hsub b hb, hon⟩
    · rintro ⟨b, hb, hfilter, rfl⟩
      obtain ⟨b', hb', hfilter', hkeys⟩ := hanswers b hb hfilter hne
      exact ⟨b', hb', hfilter', hkeys⟩
  unfold BagJoin.isAmong
  rw [hpartner (some true) (by simp), hpartner none (by simp)]

variable [DecidableEq κ] {leftKey : α → Option κ} {rightKey : β → Option κ}
  {keep : Option κ → ℕ → ℕ → ℕ} {O : τ → Multiset α}

lemma count_map_gathered (f : α → Option κ) (k : Option κ) :
    ((gathered S).map f).count k = ∑ t, ((S t).map f).count k := by
  exact map_sum ((Multiset.countAddMonoidHom k).comp (Multiset.mapAddMonoidHom f)) S Finset.univ

/-- The items of each key that are left, where each key lies on one task. -/
lemma counted_gathered {c : ℕ} (hnone : ∀ n m, keep none n m = c * n)
    (hzero : ∀ k, keep (some k) 0 0 = 0)
    (hkeys : ∀ k, ∃ t, ∀ s, s ≠ t →
      (∀ a ∈ L s, leftKey a ≠ some k) ∧ ∀ b ∈ R s, rightKey b ≠ some k)
    (hO : ∀ t, O t ∈ BagJoin.counted leftKey rightKey keep (L t) (R t)) :
    gathered O ∈ BagJoin.counted leftKey rightKey keep (gathered L) (gathered R) := by
  refine ⟨Finset.sum_le_sum fun t _ => (hO t).1, fun k => ?_⟩
  rw [count_map_gathered, count_map_gathered, count_map_gathered,
    Finset.sum_congr rfl fun t _ => (hO t).2 k]
  cases k with
  | none => simp only [hnone, Finset.mul_sum]
  | some k =>
      obtain ⟨t, ht⟩ := hkeys k
      have hleft : ∀ s, s ≠ t → ((L s).map leftKey).count (some k) = 0 := fun s hs =>
        Multiset.count_eq_zero.mpr fun hmem =>
          let ⟨a, ha, heq⟩ := Multiset.mem_map.mp hmem
          (ht s hs).1 a ha heq
      have hright : ∀ s, s ≠ t → ((R s).map rightKey).count (some k) = 0 := fun s hs =>
        Multiset.count_eq_zero.mpr fun hmem =>
          let ⟨b, hb, heq⟩ := Multiset.mem_map.mp hmem
          (ht s hs).2 b hb heq
      rw [Finset.sum_eq_single t (fun s _ hs => by rw [hleft s hs, hright s hs, hzero])
          fun h => absurd (Finset.mem_univ t) h,
        Finset.sum_eq_single t (fun s _ hs => hleft s hs) fun h => absurd (Finset.mem_univ t) h,
        Finset.sum_eq_single t (fun s _ hs => hright s hs) fun h => absurd (Finset.mem_univ t) h]

end joins

/-! ### Placed items -/

variable [DecidableEq τ]

/-- The items that a function places on a task, of a spread that lies where the function says. -/
lemma eq_filter_of_placed {place : α → τ} (h : ∀ t, ∀ a ∈ S t, place a = t) (t : τ) :
    S t = (gathered S).filter (place · = t) := by
  have hpart : ∀ s, (S s).filter (place · = t) = if s = t then S s else 0 := by
    intro s
    split
    · rename_i hst
      exact Multiset.filter_eq_self.mpr fun a ha => (h s a ha).trans hst
    · rename_i hst
      exact Multiset.filter_eq_nil.mpr fun a ha heq => hst ((h s a ha).symm.trans heq)
  rw [← gathered_filter]
  simp [gathered, hpart]

/-- The items placed on each task are all the items. -/
lemma gathered_placed (place : α → τ) (W : Multiset α) :
    gathered (fun t => W.filter (place · = t)) = W := by
  induction W using Multiset.induction_on with
  | empty => simp [gathered]
  | cons a W ih =>
      have hcons : ∀ t, (a ::ₘ W).filter (place · = t) =
          (if place a = t then {a} else 0) + W.filter (place · = t) := fun t =>
        Multiset.filter_cons W
      rw [gathered] at ih ⊢
      simp only [hcons, Finset.sum_add_distrib, ih]
      rw [Finset.sum_ite_eq, if_pos (Finset.mem_univ _), Multiset.singleton_add]

/-- Each task is shown only items of the bag, all that it asks for, and one at least if there is
any. -/
structure Shared (asks : τ → α → Prop) (W : Multiset α) (S : τ → Multiset α) : Prop where
  subset : ∀ t, ∀ a ∈ S t, a ∈ W
  shown : ∀ t, ∀ a ∈ W, asks t a → a ∈ S t
  nonempty : ∀ t, W ≠ 0 → S t ≠ 0

end Verax.Lib.Spreads
