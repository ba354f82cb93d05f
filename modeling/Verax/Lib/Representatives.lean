import Mathlib.Algebra.Order.Group.Multiset

/-!
# Representatives

One item of each class of a relation, as a loop finds them that remembers the items it has met.

* `Represents`: some of the items, one of each class.
* `exists_represents`: there are always such items.
* `represents_add`, `represents_filter`, `represents_map`: parts of a bag that share no class, the
  items of some classes, images that keep the classes.
* `mapSeen`, `isFirst`: a loop over a list that is told which items came before.
* `countP_mapSeen`: the loop finds one item of each class.
-/

namespace Verax.Lib.Representatives

variable {α β : Type*} {r : α → α → Prop} [DecidableRel r]

/-- Some of the items of a bag, one of each class. -/
def Represents (r : α → α → Prop) [DecidableRel r] (chosen items : Multiset α) : Prop :=
  chosen ≤ items ∧ ∀ a ∈ items, chosen.countP (r · a) = 1

/-- A loop over a list that is told which items came before. -/
def mapSeen (f : List α → α → β) : List α → List α → List β
  | _, [] => []
  | seen, a :: l => f seen a :: mapSeen f (a :: seen) l

/-- An item that passes is the first of its class. -/
def isFirst (r : α → α → Prop) [DecidableRel r] (passes : α → Bool) (seen : List α) (a : α) : Bool :=
  passes a && !seen.any fun b => passes b && decide (r b a)

/-- A loop that only marks items keeps what the marks leave alone. -/
lemma map_mapSeen {γ : Type*} {f : List α → α → β} {g : β → γ} {h : α → γ}
    (hf : ∀ seen a, g (f seen a) = h a) : ∀ (l seen : List α),
      (mapSeen f seen l).map g = l.map h
  | [], _ => rfl
  | a :: l, seen => by rw [mapSeen, List.map_cons, List.map_cons, hf, map_mapSeen hf l]

lemma exists_of_mem_mapSeen {f : List α → α → β} {b : β} : ∀ {l seen : List α},
    b ∈ mapSeen f seen l → ∃ seen', ∃ a ∈ l, b = f seen' a
  | a :: l, seen, h => by
      rcases List.mem_cons.mp h with rfl | h
      · exact ⟨seen, a, List.mem_cons_self, rfl⟩
      · obtain ⟨seen', a', ha', hb⟩ := exists_of_mem_mapSeen h
        exact ⟨seen', a', List.mem_cons_of_mem _ ha', hb⟩

/-- A loop that marks the first item of each class marks one of the class of an item, unless one
came before. -/
lemma countP_mapSeen (hr : Equivalence r) {passes : α → Bool} {f : List α → α → β} {q : β → Bool}
    {c : α} (hq : ∀ seen a, q (f seen a) = (isFirst r passes seen a && decide (r a c))) :
    ∀ (l seen : List α), (mapSeen f seen l).countP q =
      if (seen.any fun b => passes b && decide (r b c)) = true then 0
      else if (l.any fun b => passes b && decide (r b c)) = true then 1 else 0
  | [], seen => by simp [mapSeen]
  | a :: l, seen => by
      rw [mapSeen, List.countP_cons, countP_mapSeen hr hq l, hq, isFirst]
      by_cases hclass : r a c
      · have hsame : (seen.any fun b => passes b && decide (r b a)) =
            seen.any fun b => passes b && decide (r b c) := by
          refine congrArg seen.any (funext fun b => ?_)
          have hiff : r b a ↔ r b c := ⟨fun h => hr.trans h hclass,
            fun h => hr.trans h (hr.symm hclass)⟩
          rw [decide_eq_decide.mpr hiff]
        rw [hsame]
        cases hpasses : passes a <;>
          cases hseen : seen.any fun b => passes b && decide (r b c) <;>
          simp [hclass, hpasses, hseen]
      · simp [hclass]

/-- There is a representative of each class. -/
lemma exists_represents (hr : Equivalence r) (items : Multiset α) :
    ∃ chosen, Represents r chosen items := by
  induction items using Multiset.induction with
  | empty => exact ⟨0, le_rfl, by simp⟩
  | cons a items ih =>
      obtain ⟨chosen, hle, hcount⟩ := ih
      by_cases hmet : ∃ b ∈ items, r b a
      · obtain ⟨b, hb, hba⟩ := hmet
        refine ⟨chosen, hle.trans (Multiset.le_cons_self _ _), fun c hc => ?_⟩
        rcases Multiset.mem_cons.mp hc with rfl | hc
        · rw [← hcount b hb]
          exact Multiset.countP_congr rfl fun d _ => propext
            ⟨fun h => hr.trans h (hr.symm hba), fun h => hr.trans h hba⟩
        · exact hcount c hc
      · refine ⟨a ::ₘ chosen, Multiset.cons_le_cons a hle, fun c hc => ?_⟩
        rw [Multiset.countP_cons]
        rcases Multiset.mem_cons.mp hc with rfl | hc
        · have hnone : chosen.countP (r · c) = 0 := by
            rw [Multiset.countP_eq_zero]
            exact fun b hb hbc => hmet ⟨b, Multiset.mem_of_le hle hb, hbc⟩
          rw [hnone, if_pos (hr.refl c)]
        · have hother : ¬ r a c := fun h => hmet ⟨c, hc, hr.symm h⟩
          rw [hcount c hc, if_neg hother]

/-! ### Bags from bags -/

/-- Representatives of two bags that share no class. -/
lemma represents_add (hr : Equivalence r) {chosen items chosen' items' : Multiset α}
    (h : Represents r chosen items) (h' : Represents r chosen' items')
    (hapart : ∀ a ∈ items, ∀ b ∈ items', ¬ r a b) :
    Represents r (chosen + chosen') (items + items') := by
  refine ⟨add_le_add h.1 h'.1, fun a ha => ?_⟩
  rw [Multiset.countP_add]
  rcases Multiset.mem_add.mp ha with ha | ha
  · have hnone : chosen'.countP (r · a) = 0 := by
      rw [Multiset.countP_eq_zero]
      exact fun b hb hba => hapart a ha b (Multiset.mem_of_le h'.1 hb) (hr.symm hba)
    rw [h.2 a ha, hnone]
  · have hnone : chosen.countP (r · a) = 0 := by
      rw [Multiset.countP_eq_zero]
      exact fun b hb hba => hapart b (Multiset.mem_of_le h.1 hb) a ha hba
    rw [h'.2 a ha, hnone]

/-- Representatives of the items of some classes. -/
lemma represents_filter {p : α → Prop} [DecidablePred p] {chosen items : Multiset α}
    (h : Represents r chosen items) (hp : ∀ a b, r a b → p b → p a) :
    Represents r (chosen.filter p) (items.filter p) := by
  refine ⟨Multiset.filter_le_filter p h.1, fun a ha => ?_⟩
  obtain ⟨ha, hpa⟩ := Multiset.mem_filter.mp ha
  rw [← h.2 a ha, Multiset.countP_filter]
  exact Multiset.countP_congr rfl fun b _ => propext ⟨And.left, fun hba => ⟨hba, hp b a hba hpa⟩⟩

/-- Images that keep the classes of the items. -/
lemma represents_map {r' : β → β → Prop} [DecidableRel r'] {f : α → β}
    {chosen items : Multiset α} (h : Represents r chosen items)
    (hf : ∀ a ∈ items, ∀ b ∈ items, r a b ↔ r' (f a) (f b)) :
    Represents r' (chosen.map f) (items.map f) := by
  refine ⟨Multiset.map_le_map h.1, fun c hc => ?_⟩
  obtain ⟨a, ha, rfl⟩ := Multiset.mem_map.mp hc
  rw [← h.2 a ha, Multiset.countP_map, ← Multiset.countP_eq_card_filter]
  exact Multiset.countP_congr rfl fun b hb =>
    propext (hf b (Multiset.mem_of_le h.1 hb) a ha).symm

end Verax.Lib.Representatives
