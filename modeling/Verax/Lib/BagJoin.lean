import Mathlib.Data.Multiset.Bind
import Mathlib.Data.Multiset.Filter
import Verax.Lib.ThreeValued

/-!
# Joins of bags

The rows a join of two bags emits, for a condition on pairs of rows: the pairs that match, the rows
that have or lack a partner, and the three-valued answer to whether a row has one.
-/

namespace Verax.Lib.BagJoin

variable {α β κ : Type*}

/-- The row has a partner in the other bag. -/
def hasPartner (on : α → β → Bool) (B : Multiset β) (a : α) : Bool := 0 < B.countP (on a ·)

/-- The pairs that match. -/
def inner (on : α → β → Bool) (A : Multiset α) (B : Multiset β) : Multiset (α × β) :=
  A.bind fun a => (B.filter (on a ·)).map (a, ·)

/-- The rows with a partner. -/
def matched (on : α → β → Bool) (A : Multiset α) (B : Multiset β) : Multiset α :=
  A.filter (hasPartner on B ·)

/-- The rows without a partner. -/
def unmatched (on : α → β → Bool) (A : Multiset α) (B : Multiset β) : Multiset α :=
  A.filter (!hasPartner on B ·)

/-- Whether a row is among those of the other bag that pass a filter, where the comparison of keys
may be unknown: true if a row is equal, unknown if none is but one might be. -/
def isAmong (keys : α → β → Truth) (filter : α → β → Bool) (B : Multiset β) (a : α) : Truth :=
  if hasPartner (fun a b => filter a b && keys a b = some true) B a then some true
  else if hasPartner (fun a b => filter a b && keys a b = none) B a then none
  else some false

/-- The bags left of `A` when `keep` says how many rows of each key stay, given how many each of the
two bags has. -/
def counted [DecidableEq κ] (leftKey : α → κ) (rightKey : β → κ) (keep : κ → ℕ → ℕ → ℕ)
    (A : Multiset α) (B : Multiset β) : Set (Multiset α) :=
  {S | S ≤ A ∧ ∀ k, (S.map leftKey).count k =
    keep k ((A.map leftKey).count k) ((B.map rightKey).count k)}

variable {on : α → β → Bool} {B : Multiset β} {a : α}

@[simp] lemma hasPartner_iff : hasPartner on B a = true ↔ ∃ b ∈ B, on a b = true := by
  simp [hasPartner, Multiset.countP_pos]

/-- Where every pair matches, a row has a partner if the other bag has a row. -/
lemma hasPartner_of_forall (hon : ∀ a b, on a b = true) :
    hasPartner on B a = true ↔ B ≠ 0 := by
  rw [hasPartner_iff]
  constructor
  · rintro ⟨b, hb, -⟩ rfl
    exact Multiset.notMem_zero b hb
  · intro hB
    obtain ⟨b, hb⟩ := Multiset.exists_mem_of_ne_zero hB
    exact ⟨b, hb, hon a b⟩

lemma mem_inner {A : Multiset α} {p : α × β} :
    p ∈ inner on A B ↔ p.1 ∈ A ∧ p.2 ∈ B ∧ on p.1 p.2 = true := by
  simp only [inner, Multiset.mem_bind, Multiset.mem_map, Multiset.mem_filter]
  constructor
  · rintro ⟨a, ha, b, ⟨hb, hon⟩, rfl⟩
    exact ⟨ha, hb, hon⟩
  · exact fun ⟨ha, hb, hon⟩ => ⟨p.1, ha, p.2, ⟨hb, hon⟩, rfl⟩

/-- The pairs that match, for a condition that agrees with another on the rows there are. -/
lemma inner_congr {on' : α → β → Bool} {A : Multiset α}
    (h : ∀ a ∈ A, ∀ b ∈ B, on a b = on' a b) : inner on A B = inner on' A B :=
  Multiset.bind_congr fun a ha =>
    congrArg (Multiset.map (a, ·)) (Multiset.filter_congr fun b hb => by rw [h a ha b hb])

/-- Rows that match nothing can be left out of both bags. -/
lemma inner_filter {p : α → Prop} {q : β → Prop} [DecidablePred p] [DecidablePred q] {A : Multiset α}
    (h : ∀ a ∈ A, ∀ b ∈ B, on a b = true → p a ∧ q b) :
    inner on (A.filter p) (B.filter q) = inner on A B := by
  induction A using Multiset.induction_on with
  | empty => rfl
  | cons a A ih =>
    have ih := ih fun a' ha' => h a' (Multiset.mem_cons_of_mem ha')
    have ha := h a (Multiset.mem_cons_self a A)
    rw [inner] at ih ⊢
    conv_rhs => rw [inner, Multiset.cons_bind]
    by_cases hp : p a
    · have hq : (B.filter q).filter (on a ·) = B.filter (on a ·) := by
        rw [Multiset.filter_filter]
        exact Multiset.filter_congr fun b hb => ⟨And.left, fun hon => ⟨hon, (ha b hb hon).2⟩⟩
      rw [Multiset.filter_cons_of_pos _ hp, Multiset.cons_bind, hq, ih]
      rfl
    · have hnone : B.filter (on a ·) = 0 :=
        Multiset.filter_eq_nil.mpr fun b hb hon => hp (ha b hb hon).1
      rw [Multiset.filter_cons_of_neg _ hp, hnone, Multiset.map_zero, zero_add, ih]
      rfl

section counted

variable {κ' : Type*} [DecidableEq κ] [DecidableEq κ'] {leftKey : α → κ} {rightKey : β → κ}
  {leftKey' : α → κ'} {rightKey' : β → κ'} {keep : κ → ℕ → ℕ → ℕ} {keep' : κ' → ℕ → ℕ → ℕ}

lemma count_map_congr {f : α → κ} {g : α → κ'} {k : κ} {k' : κ'} (h : ∀ a, k = f a ↔ k' = g a)
    (S : Multiset α) : (S.map f).count k = (S.map g).count k' := by
  rw [Multiset.count_map, Multiset.count_map]
  exact congrArg Multiset.card (Multiset.filter_congr fun a _ => h a)

/-- The bags left depend on the keys as far as they tell rows apart. -/
lemma counted_subset (hll : ∀ a a', leftKey a = leftKey a' ↔ leftKey' a = leftKey' a')
    (hlr : ∀ a b, leftKey a = rightKey b ↔ leftKey' a = rightKey' b)
    (hrr : ∀ b b', rightKey b = rightKey b' ↔ rightKey' b = rightKey' b')
    (hleft : ∀ a, keep (leftKey a) = keep' (leftKey' a))
    (hright : ∀ b, keep (rightKey b) = keep' (rightKey' b)) (hzero : ∀ k, keep' k 0 0 = 0)
    (A : Multiset α) (B : Multiset β) :
    counted leftKey rightKey keep A B ⊆ counted leftKey' rightKey' keep' A B := by
  rintro S ⟨hle, hcount⟩
  have hkey : ∀ k k', (∀ a, k = leftKey a ↔ k' = leftKey' a) →
      (∀ b, k = rightKey b ↔ k' = rightKey' b) → keep k = keep' k' → (S.map leftKey').count k' =
        keep' k' ((A.map leftKey').count k') ((B.map rightKey').count k') := by
    intro k k' hl hr hkeep
    rw [← count_map_congr hl S, ← count_map_congr hl A, ← count_map_congr hr B, ← hkeep]
    exact hcount k
  refine ⟨hle, fun k' => ?_⟩
  by_cases hl : ∃ a, leftKey' a = k'
  · obtain ⟨a, rfl⟩ := hl
    exact hkey (leftKey a) _ (hll a) (hlr a) (hleft a)
  · by_cases hr : ∃ b, rightKey' b = k'
    · obtain ⟨b, rfl⟩ := hr
      exact hkey (rightKey b) _ (fun a => by rw [eq_comm, hlr, eq_comm]) (hrr b) (hright b)
    · have hnone : ∀ T : Multiset α, (T.map leftKey').count k' = 0 := fun T =>
        Multiset.count_eq_zero.mpr fun hmem =>
          let ⟨a, _, ha⟩ := Multiset.mem_map.mp hmem
          hl ⟨a, ha⟩
      have hnone' : (B.map rightKey').count k' = 0 := Multiset.count_eq_zero.mpr fun hmem =>
        let ⟨b, _, hb⟩ := Multiset.mem_map.mp hmem
        hr ⟨b, hb⟩
      rw [hnone, hnone, hnone', hzero]

end counted

/-! ### Rows that are replaced

What a join makes of rows depends on them as far as the condition tells them apart. -/

section map

variable {α' β' : Type*} {f : α → α'} {g : β → β'} {on' : α' → β' → Bool}

lemma inner_map (h : ∀ a b, on' (f a) (g b) = on a b) (A : Multiset α) (B : Multiset β) :
    inner on' (A.map f) (B.map g) = (inner on A B).map (Prod.map f g) := by
  rw [inner, inner, Multiset.bind_map, Multiset.map_bind]
  refine Multiset.bind_congr fun a _ => ?_
  rw [Multiset.filter_map, Multiset.map_map, Multiset.map_map]
  exact congrArg (Multiset.map _) (Multiset.filter_congr fun b _ => by rw [Function.comp, h])

lemma hasPartner_map (h : ∀ a b, on' (f a) (g b) = on a b) (B : Multiset β) (a : α) :
    hasPartner on' (B.map g) (f a) = hasPartner on B a := by
  rw [Bool.eq_iff_iff]
  simp [h]

lemma isAmong_map {keys : α → β → Truth} {keys' : α' → β' → Truth} {filter : α → β → Bool}
    {filter' : α' → β' → Bool} (hkeys : ∀ a b, keys' (f a) (g b) = keys a b)
    (hfilter : ∀ a b, filter' (f a) (g b) = filter a b) (B : Multiset β) (a : α) :
    isAmong keys' filter' (B.map g) (f a) = isAmong keys filter B a := by
  unfold isAmong
  rw [hasPartner_map (fun a b => by rw [hkeys, hfilter]),
    hasPartner_map (fun a b => by rw [hkeys, hfilter])]

lemma exists_le_of_le_map {A : Multiset α} {S : Multiset α'} (h : S ≤ A.map f) :
    ∃ T ≤ A, T.map f = S := by
  classical
  induction A using Multiset.induction_on generalizing S with
  | empty => exact ⟨0, le_rfl, (Multiset.le_zero.mp h).symm⟩
  | cons a A ih =>
      rw [Multiset.map_cons] at h
      by_cases ha : f a ∈ S
      · obtain ⟨S, rfl⟩ := Multiset.exists_cons_of_mem ha
        obtain ⟨T, hT, rfl⟩ := ih ((Multiset.cons_le_cons_iff (f a)).mp h)
        exact ⟨a ::ₘ T, Multiset.cons_le_cons a hT, Multiset.map_cons f a T⟩
      · obtain ⟨T, hT, rfl⟩ := ih ((Multiset.le_cons_of_notMem ha).mp h)
        exact ⟨T, hT.trans (Multiset.le_cons_self A a), rfl⟩

lemma counted_map [DecidableEq κ] {leftKey : α → κ} {rightKey : β → κ} {leftKey' : α' → κ}
    {rightKey' : β' → κ} {keep : κ → ℕ → ℕ → ℕ} (hleft : ∀ a, leftKey' (f a) = leftKey a)
    (hright : ∀ b, rightKey' (g b) = rightKey b) (A : Multiset α) (B : Multiset β) :
    counted leftKey' rightKey' keep (A.map f) (B.map g) =
      Multiset.map f '' counted leftKey rightKey keep A B := by
  have hkeys : ∀ T : Multiset α, (T.map f).map leftKey' = T.map leftKey := fun T => by
    rw [Multiset.map_map]
    exact Multiset.map_congr rfl fun a _ => hleft a
  have hkeys' : (B.map g).map rightKey' = B.map rightKey := by
    rw [Multiset.map_map]
    exact Multiset.map_congr rfl fun b _ => hright b
  ext S
  constructor
  · rintro ⟨hle, hcount⟩
    obtain ⟨T, hT, rfl⟩ := exists_le_of_le_map hle
    rw [hkeys, hkeys, hkeys'] at hcount
    exact ⟨T, ⟨hT, hcount⟩, rfl⟩
  · rintro ⟨T, ⟨hT, hcount⟩, rfl⟩
    refine ⟨Multiset.map_le_map hT, ?_⟩
    rw [hkeys, hkeys, hkeys']
    exact hcount

end map

/-! ### Bags that give a row the same partners -/

section SamePartners

variable {α' β' : Type*} {keys : α → β → Truth} {keys' : α' → β' → Truth} {filter : α → β → Bool}
  {filter' : α' → β' → Bool} {B' : Multiset β'} {a' : α'}

/-- Each row of a bag is to a row what some row of another bag is to another row. -/
structure SamePartners (keys : α → β → Truth) (keys' : α' → β' → Truth) (filter : α → β → Bool)
    (filter' : α' → β' → Bool) (B : Multiset β) (B' : Multiset β') (a : α) (a' : α') : Prop where
  left : ∀ b ∈ B, ∃ b' ∈ B', keys a b = keys' a' b' ∧ filter a b = filter' a' b'
  right : ∀ b' ∈ B', ∃ b ∈ B, keys a b = keys' a' b' ∧ filter a b = filter' a' b'

lemma SamePartners.hasPartner (h : SamePartners keys keys' filter filter' B B' a a')
    (on : Truth → Bool → Bool) : hasPartner (fun a b => on (keys a b) (filter a b)) B a =
      hasPartner (fun a b => on (keys' a b) (filter' a b)) B' a' := by
  rw [Bool.eq_iff_iff, hasPartner_iff, hasPartner_iff]
  constructor
  · rintro ⟨b, hb, hon⟩
    obtain ⟨b', hb', hkeys, hfilter⟩ := h.left b hb
    exact ⟨b', hb', by rw [← hkeys, ← hfilter, hon]⟩
  · rintro ⟨b', hb', hon⟩
    obtain ⟨b, hb, hkeys, hfilter⟩ := h.right b' hb'
    exact ⟨b, hb, by rw [hkeys, hfilter, hon]⟩

lemma SamePartners.isAmong (h : SamePartners keys keys' filter filter' B B' a a') :
    isAmong keys filter B a = isAmong keys' filter' B' a' := by
  unfold BagJoin.isAmong
  rw [h.hasPartner fun k f => f && k = some true, h.hasPartner fun k f => f && k = none]

end SamePartners

lemma map_of_rel {γ : Type*} {β : Type*} {R : α → β → Prop} {f : α → γ} {g : β → γ}
    {A : Multiset α} {B : Multiset β} (h : Multiset.Rel R A B) (hf : ∀ a b, R a b → f a = g b) :
    A.map f = B.map g :=
  Multiset.rel_eq.mp (Multiset.rel_map.mpr (h.mono fun a _ b _ => hf a b))

/-- What is made of the rows of two bags that are kept, where the rows go together. -/
lemma map_filter_of_rel {γ : Type*} {β : Type*} {R : α → β → Prop} {p : α → Prop} {q : β → Prop}
    [DecidablePred p] [DecidablePred q] {f : α → γ} {g : β → γ} {A : Multiset α} {B : Multiset β}
    (h : Multiset.Rel R A B) (hp : ∀ a b, R a b → (p a ↔ q b)) (hf : ∀ a b, R a b → f a = g b) :
    (A.filter p).map f = (B.filter q).map g := by
  induction h with
  | zero => rfl
  | @cons a b A B hrow _ ih =>
      by_cases hpa : p a
      · rw [Multiset.filter_cons_of_pos _ hpa, Multiset.filter_cons_of_pos _ ((hp a b hrow).mp hpa),
          Multiset.map_cons, Multiset.map_cons, ih, hf a b hrow]
      · rw [Multiset.filter_cons_of_neg _ hpa,
          Multiset.filter_cons_of_neg _ fun h => hpa ((hp a b hrow).mpr h), ih]

end Verax.Lib.BagJoin
