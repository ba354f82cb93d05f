import Mathlib.Data.List.Basic
import Mathlib.Logic.Relation
import Mathlib.Tactic.SplitIfs

/-!
# Items merged into classes

Classes of items, each known by a number, that grow as pairs of items are merged. A number stays with
one class: it is given when two items outside all classes meet, and is lost when another class
absorbs the class.

* `Classes.merge`, `Classes.mergeAll`: merging a pair, or a list of pairs.
* `linked_of_same_mergeAll`: items end up in one class only if pairs and earlier classes link them.
* `exists_of_mem_mergeAll`: a class that grew holds a pair whose items were apart.
-/

namespace Verax.Lib

/-- Items in classes. -/
structure Classes (α : Type*) where
  classOf : α → Option ℕ
  next : ℕ
  lt_next : ∀ (a : α) (e : ℕ), classOf a = some e → e < next

namespace Classes

variable {α : Type*}

/-- No item is in a class. -/
def empty : Classes α := ⟨fun _ => none, 0, nofun⟩

/-- Two items are in one class. -/
def Same (s : Classes α) (a b : α) : Prop := ∃ e, s.classOf a = some e ∧ s.classOf b = some e

lemma Same.symm {s : Classes α} {a b : α} (h : s.Same a b) : s.Same b a := by
  obtain ⟨e, ha, hb⟩ := h
  exact ⟨e, hb, ha⟩

/-- Some items are put in a class. -/
def put (s : Classes α) (p : α → Prop) [DecidablePred p] (e : ℕ) : Classes α where
  classOf c := if p c then some e else s.classOf c
  next := max s.next (e + 1)
  lt_next c e' h := by
    split_ifs at h
    · have := Option.some.inj h
      omega
    · have := s.lt_next c e' h
      omega

/-- Linked by classes and by pairs. -/
def Linked (s : Classes α) (pairs : List (α × α)) : α → α → Prop :=
  Relation.EqvGen fun c d => s.Same c d ∨ (c, d) ∈ pairs

lemma Linked.mono {s t : Classes α} {pairs pairs' : List (α × α)}
    (h : ∀ c d, s.Same c d ∨ (c, d) ∈ pairs → t.Linked pairs' c d) {c d : α}
    (hlinked : s.Linked pairs c d) : t.Linked pairs' c d := by
  induction hlinked with
  | rel c d hcd => exact h c d hcd
  | refl c => exact .refl c
  | symm c d _ ih => exact .symm _ _ ih
  | trans c d e _ _ ihcd ihde => exact .trans _ _ _ ihcd ihde

/-- What a merge puts in a class: the items of the pair that are not in it, with their classes. -/
structure Grows (s : Classes α) (a b : α) (p : α → Prop) (e : ℕ) : Prop where
  left : p a ∨ s.classOf a = some e
  right : p b ∨ s.classOf b = some e
  linked : ∀ c, p c ∨ s.classOf c = some e → s.Linked [(a, b)] c a
  whole : ∀ c d, s.Same c d → p c → p d
  known : e = s.next ∨ s.classOf a = some e ∨ s.classOf b = some e

lemma linked_pair (s : Classes α) (a b : α) : s.Linked [(a, b)] b a :=
  .symm _ _ (.rel _ _ (.inr List.mem_cons_self))

section merge

variable [DecidableEq α]

/-- Brings two items into one class, and tells whether they were apart. -/
def merge (s : Classes α) (a b : α) : Bool × Classes α :=
  match s.classOf a, s.classOf b with
  | none, none => (true, s.put (fun c => c = a ∨ c = b) s.next)
  | some e, none => (true, s.put (· = b) e)
  | none, some e => (true, s.put (· = a) e)
  | some e, some e' => if e = e' then (false, s) else (true, s.put (s.classOf · = some e') e)

/-- Merges a list of pairs, and lists the classes that grew by a pair. -/
def mergeAll (s : Classes α) : List (α × α) → List ℕ × Classes α
  | [] => ([], s)
  | (a, b) :: pairs =>
      let merged := s.merge a b
      let rest := merged.2.mergeAll pairs
      (if merged.1 then (merged.2.classOf a).toList ++ rest.1 else rest.1, rest.2)

/-- A merge leaves a pair of one class, or a class grows. -/
lemma merge_cases (s : Classes α) (a b : α) :
    (s.Same a b ∧ s.merge a b = (false, s)) ∨
      ∃ (p : α → Prop) (_ : DecidablePred p) (e : ℕ), s.merge a b = (true, s.put p e) ∧
        ¬ s.Same a b ∧ s.Grows a b p e := by
  unfold merge
  split
  case h_1 ha hb =>
    refine .inr ⟨_, _, _, rfl, ?_, ⟨.inl (.inl rfl), .inl (.inr rfl), ?_, ?_, .inl rfl⟩⟩
    · rintro ⟨e, hae, -⟩
      simp [ha] at hae
    · rintro c ((rfl | rfl) | hc)
      · exact .refl _
      · exact s.linked_pair a c
      · exact absurd (s.lt_next c _ hc) (Nat.lt_irrefl _)
    · rintro c d ⟨e, hc, -⟩ (rfl | rfl)
      · simp [ha] at hc
      · simp [hb] at hc
  case h_2 e ha hb =>
    refine .inr ⟨_, _, _, rfl, ?_, ⟨.inr ha, .inl rfl, ?_, ?_, .inr (.inl ha)⟩⟩
    · rintro ⟨e', -, hbe⟩
      simp [hb] at hbe
    · rintro c (rfl | hc)
      · exact s.linked_pair a c
      · exact .rel _ _ (.inl ⟨e, hc, ha⟩)
    · rintro c d ⟨e', hc, -⟩ rfl
      simp [hb] at hc
  case h_3 e ha hb =>
    refine .inr ⟨_, _, _, rfl, ?_, ⟨.inl rfl, .inr hb, ?_, ?_, .inr (.inr hb)⟩⟩
    · rintro ⟨e', hae, -⟩
      simp [ha] at hae
    · rintro c (rfl | hc)
      · exact .refl _
      · exact .trans _ _ _ (.rel _ _ (.inl ⟨e, hc, hb⟩)) (s.linked_pair a b)
    · rintro c d ⟨e', hc, -⟩ rfl
      simp [ha] at hc
  case h_4 e e' ha hb =>
    split_ifs with he
    · subst he
      exact .inl ⟨⟨e, ha, hb⟩, rfl⟩
    · refine .inr ⟨_, _, _, rfl, ?_, ⟨.inr ha, .inl hb, ?_, ?_, .inr (.inl ha)⟩⟩
      · rintro ⟨e'', hae, hbe⟩
        exact he (Option.some.inj (ha.symm.trans (hae.trans (hbe.symm.trans hb))))
      · rintro c (hc | hc)
        · exact .trans _ _ _ (.rel _ _ (.inl ⟨e', hc, hb⟩)) (s.linked_pair a b)
        · exact .rel _ _ (.inl ⟨e, hc, ha⟩)
      · rintro c d ⟨e'', hc, hd⟩ hc'
        exact hd.trans (hc.symm.trans hc')

end merge

section put

variable {s : Classes α} {a b : α} {p : α → Prop} [DecidablePred p] {e : ℕ}

lemma classOf_put (c : α) : (s.put p e).classOf c = if p c then some e else s.classOf c := rfl

lemma classOf_put_eq {c : α} (h : p c ∨ s.classOf c = some e) : (s.put p e).classOf c = some e := by
  rw [classOf_put]
  split_ifs with hp
  · rfl
  · exact h.resolve_left hp

lemma of_classOf_put_eq {c : α} (h : (s.put p e).classOf c = some e) :
    p c ∨ s.classOf c = some e := by
  rw [classOf_put] at h
  split_ifs at h with hp
  · exact .inl hp
  · exact .inr h

/-- Items of one class stay together. -/
lemma Grows.same (h : s.Grows a b p e) {c d : α} (hsame : s.Same c d) : (s.put p e).Same c d := by
  by_cases hc : p c
  · exact ⟨e, classOf_put_eq (.inl hc), classOf_put_eq (.inl (h.whole c d hsame hc))⟩
  · have hd : ¬p d := fun hd => hc (h.whole d c hsame.symm hd)
    obtain ⟨e', hce, hde⟩ := hsame
    exact ⟨e', by rw [classOf_put, if_neg hc, hce], by rw [classOf_put, if_neg hd, hde]⟩

/-- Items come together only in the class that grows. -/
lemma Grows.linked_of_same (h : s.Grows a b p e) {c d : α} (hsame : (s.put p e).Same c d) :
    s.Linked [(a, b)] c d := by
  obtain ⟨e', hc, hd⟩ := hsame
  by_cases he : e' = e
  · subst he
    exact .trans _ _ _ (h.linked c (of_classOf_put_eq hc))
      (.symm _ _ (h.linked d (of_classOf_put_eq hd)))
  · rw [classOf_put] at hc hd
    split_ifs at hc hd with hpc hpd
    all_goals first
      | exact absurd (Option.some.inj hc).symm he
      | exact absurd (Option.some.inj hd).symm he
      | exact .rel _ _ (.inl ⟨e', hc, hd⟩)

/-- The pair is in the class that grows. -/
lemma Grows.pair (h : s.Grows a b p e) : (s.put p e).Same a b :=
  ⟨e, classOf_put_eq h.left, classOf_put_eq h.right⟩

/-- A class that is still there has lost no item. -/
lemma Grows.classOf_eq (h : s.Grows a b p e) {c d : α} {e' : ℕ} (hc : s.classOf c = some e')
    (hd : (s.put p e).classOf d = some e') : (s.put p e).classOf c = some e' := by
  by_cases hp : p c
  · by_cases hpd : p d
    · rw [classOf_put, if_pos hpd] at hd
      rw [classOf_put, if_pos hp, hd]
    · rw [classOf_put, if_neg hpd] at hd
      exact absurd (h.whole c d ⟨e', hc, hd⟩ hp) hpd
  · rw [classOf_put, if_neg hp, hc]

/-- A class that is there was there, unless it is new. -/
lemma Grows.exists_classOf (h : s.Grows a b p e) {d : α} {e' : ℕ} (hlt : e' < s.next)
    (hd : (s.put p e).classOf d = some e') : ∃ c, s.classOf c = some e' := by
  rw [classOf_put] at hd
  split_ifs at hd with hp
  · obtain rfl := Option.some.inj hd
    rcases h.known with rfl | ha | hb
    · exact absurd hlt (Nat.lt_irrefl _)
    · exact ⟨a, ha⟩
    · exact ⟨b, hb⟩
  · exact ⟨d, hd⟩

end put

section mergeAll

variable [DecidableEq α]

/-- Items end up in one class only if pairs and earlier classes link them. -/
theorem linked_of_same_mergeAll : ∀ {pairs : List (α × α)} {s : Classes α} {c d : α},
    (s.mergeAll pairs).2.Same c d → s.Linked pairs c d
  | [], _, _, _, h => .rel _ _ (.inl h)
  | (a, b) :: pairs, s, c, d, h => by
    have h' : ((s.merge a b).2.mergeAll pairs).2.Same c d := h
    refine (linked_of_same_mergeAll h').mono fun c d hcd => ?_
    rcases hcd with hsame | hmem
    · rcases s.merge_cases a b with ⟨-, heq⟩ | ⟨p, _, e, heq, -, hgrows⟩
      · rw [heq] at hsame
        exact .rel _ _ (.inl hsame)
      · rw [heq] at hsame
        refine (hgrows.linked_of_same hsame).mono fun c d hcd => .rel _ _ (hcd.imp_right fun hmem => ?_)
        exact List.mem_cons.mpr (.inl (List.mem_singleton.mp hmem))
    · exact .rel _ _ (.inr (List.mem_cons_of_mem _ hmem))

lemma Same.merge {s : Classes α} {c d : α} (h : s.Same c d) (a b : α) : (s.merge a b).2.Same c d := by
  rcases s.merge_cases a b with ⟨-, heq⟩ | ⟨p, _, e, heq, -, hgrows⟩
  · rw [heq]
    exact h
  · rw [heq]
    exact hgrows.same h

/-- A class that is still there after merges has lost no item, and was there before. -/
lemma classOf_mergeAll : ∀ {pairs : List (α × α)} {s : Classes α} {d : α} {e : ℕ}, e < s.next →
    (s.mergeAll pairs).2.classOf d = some e → (∃ c, s.classOf c = some e) ∧
      ∀ c, s.classOf c = some e → (s.mergeAll pairs).2.classOf c = some e
  | [], _, d, _, _, h => ⟨⟨d, h⟩, fun _ hc => hc⟩
  | (a, b) :: pairs, s, d, e, hlt, h => by
    have h' : ((s.merge a b).2.mergeAll pairs).2.classOf d = some e := h
    rcases s.merge_cases a b with ⟨-, heq⟩ | ⟨p, _, e', heq, -, hgrows⟩
    · rw [heq] at h'
      obtain ⟨hthere, hkept⟩ := classOf_mergeAll hlt h'
      refine ⟨hthere, fun c hc => ?_⟩
      have := hkept c hc
      rwa [mergeAll, heq]
    · rw [heq] at h'
      obtain ⟨⟨c', hc'⟩, hkept⟩ := classOf_mergeAll (Nat.lt_of_lt_of_le hlt (Nat.le_max_left _ _)) h'
      refine ⟨hgrows.exists_classOf hlt hc', fun c hc => ?_⟩
      have := hkept c (hgrows.classOf_eq hc hc')
      rwa [mergeAll, heq]

/-- **A class that grew and is still there holds a pair whose items were apart.** -/
theorem exists_of_mem_mergeAll : ∀ {pairs : List (α × α)} {s : Classes α} {d : α} {e : ℕ},
    e ∈ (s.mergeAll pairs).1 → (s.mergeAll pairs).2.classOf d = some e →
      ∃ pair ∈ pairs, ¬ s.Same pair.1 pair.2 ∧ (s.mergeAll pairs).2.classOf pair.1 = some e ∧
        (s.mergeAll pairs).2.classOf pair.2 = some e
  | (a, b) :: pairs, s, d, e, hmem, hd => by
    have hd' : ((s.merge a b).2.mergeAll pairs).2.classOf d = some e := hd
    have hlater : e ∈ ((s.merge a b).2.mergeAll pairs).1 → ∃ pair ∈ (a, b) :: pairs,
        ¬ s.Same pair.1 pair.2 ∧ (s.mergeAll ((a, b) :: pairs)).2.classOf pair.1 = some e ∧
          (s.mergeAll ((a, b) :: pairs)).2.classOf pair.2 = some e := by
      intro hrest
      obtain ⟨pair, hpair, happart, hleft, hright⟩ := exists_of_mem_mergeAll hrest hd'
      exact ⟨pair, List.mem_cons_of_mem _ hpair, fun hsame => happart (hsame.merge a b), hleft, hright⟩
    have hmem' : e ∈ if (s.merge a b).1 then
        ((s.merge a b).2.classOf a).toList ++ ((s.merge a b).2.mergeAll pairs).1
        else ((s.merge a b).2.mergeAll pairs).1 := hmem
    rcases s.merge_cases a b with ⟨-, heq⟩ | ⟨p, _, e', heq, happart, hgrows⟩
    · rw [heq] at hmem'
      exact hlater (by rw [heq]; exact hmem')
    · have hnewly : (s.merge a b).1 = true := by rw [heq]
      rw [if_pos hnewly, List.mem_append, Option.mem_toList] at hmem'
      rcases hmem' with hclass | hrest
      · have hpair : (s.merge a b).2.Same a b := by
          rw [heq]
          exact hgrows.pair
        obtain ⟨e'', ha, hb⟩ := hpair
        obtain rfl := Option.some.inj (hclass.symm.trans ha)
        have hkept := (classOf_mergeAll ((s.merge a b).2.lt_next a e ha) hd').2
        exact ⟨(a, b), List.mem_cons_self, happart, hkept a ha, hkept b hb⟩
      · exact hlater hrest

end mergeAll

end Classes

end Verax.Lib
