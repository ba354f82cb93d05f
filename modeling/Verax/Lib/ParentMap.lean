import Mathlib.Data.List.Nodup
import Mathlib.Data.List.Perm.Subperm
import Mathlib.Logic.Function.Basic

/-!
# Trees of parents

Disjoint sets kept as a map from items to parents, where an item that is its own parent is a root.
Looking up a root hangs every item on the way directly below it.

* `Forest`: such a map, in which every chain of parents ends.
* `Forest.root_unique`: the root of each item is the only function that roots fix and that each other
  item shares with its parent.
* `Forest.find_spec`: looking up gives the root and changes no root.
* `Forest.root_merge`: merging gives the items of one root the other one.
-/

namespace Verax.Lib.ParentMap

variable {α : Type*} [DecidableEq α]

/-- Follows parents for at most the given number of steps. -/
def climb (parent : α → Option α) : ℕ → α → α
  | 0, x => x
  | steps + 1, x =>
    match parent x with
    | none => x
    | some y => if y = x then x else climb parent steps y

/-- Hangs the items on the way from an item to the root directly below the root. -/
def hang (root : α) : ℕ → α → (α → Option α) → α → Option α
  | 0, _, parent => parent
  | steps + 1, x, parent =>
    if x = root then parent
    else
      match parent x with
      | none => parent
      | some y => hang root steps y (Function.update parent x (some root))

/-- Items with their parents. Every chain of parents ends in a root: some rank falls along it. -/
structure Forest (α : Type*) where
  parent : α → Option α
  items : List α
  known : ∀ x, x ∈ items ↔ (parent x).isSome = true
  closed : ∀ x y, parent x = some y → y ∈ items
  grounded : ∃ rank : α → ℕ, ∀ x y, parent x = some y → y ≠ x → rank y < rank x

namespace Forest

variable {F : Forest α} {x y : α}

/-- The root of an item; an item that was never added is its own. -/
def root (F : Forest α) (x : α) : α := climb F.parent F.items.length x

/-- A chain of parents that takes every step it is given: its items are distinct and known. -/
lemma exists_chain (F : Forest α) {rank : α → ℕ}
    (hrank : ∀ x y, F.parent x = some y → y ≠ x → rank y < rank x) :
    ∀ (steps : ℕ) (x : α),
      (∃ r, climb F.parent steps x = r ∧ (F.parent r = none ∨ F.parent r = some r)) ∨
      ∃ chain : List α, chain.length = steps + 1 ∧ chain.Nodup ∧ (∀ z ∈ chain, z ∈ F.items) ∧
        ∀ z ∈ chain, rank z ≤ rank x
  | 0, x => by
    rcases hparent : F.parent x with - | y
    · exact .inl ⟨x, rfl, .inl hparent⟩
    · refine .inr ⟨[x], rfl, List.nodup_singleton x, ?_, by simp⟩
      rintro z hz
      obtain rfl := List.mem_singleton.mp hz
      rw [F.known, hparent]
      rfl
  | steps + 1, x => by
    rcases hparent : F.parent x with - | y
    · exact .inl ⟨x, by simp [climb, hparent], .inl hparent⟩
    · by_cases hyx : y = x
      · exact .inl ⟨x, by simp [climb, hparent, hyx], .inr (hyx ▸ hparent)⟩
      · have hlt := hrank x y hparent hyx
        rcases exists_chain F hrank steps y with ⟨r, hr, hroot⟩ | ⟨chain, hlen, hnodup, hmem, hle⟩
        · exact .inl ⟨r, by simp [climb, hparent, hyx, hr], hroot⟩
        · refine .inr ⟨x :: chain, by simp [hlen], List.nodup_cons.mpr ⟨fun hx => ?_, hnodup⟩, ?_, ?_⟩
          · exact absurd (hle x hx) (by omega)
          · rintro z hz
            rcases List.mem_cons.mp hz with rfl | hz
            · rw [F.known, hparent]
              rfl
            · exact hmem z hz
          · rintro z hz
            rcases List.mem_cons.mp hz with rfl | hz
            · exact Nat.le_refl _
            · exact Nat.le_of_lt (Nat.lt_of_le_of_lt (hle z hz) hlt)

/-- Climbing ends in a root. -/
lemma parent_root (F : Forest α) (x : α) :
    F.parent (F.root x) = none ∨ F.parent (F.root x) = some (F.root x) := by
  obtain ⟨rank, hrank⟩ := F.grounded
  rcases F.exists_chain hrank F.items.length x with ⟨r, hr, hroot⟩ | ⟨chain, hlen, hnodup, hmem, -⟩
  · rw [root, hr]
    exact hroot
  · have hle := (List.subperm_of_subset hnodup hmem).length_le
    omega

lemma root_eq_self (h : F.parent x = none ∨ F.parent x = some x) : F.root x = x := by
  unfold root
  cases F.items.length with
  | zero => rfl
  | succ steps => rcases h with h | h <;> simp [climb, h]

@[simp] lemma root_root (F : Forest α) (x : α) : F.root (F.root x) = F.root x :=
  root_eq_self (F.parent_root x)

/-- **The root is determined** by what it is at roots and that it is shared with parents. -/
lemma root_unique (F : Forest α) {f : α → α}
    (hroot : ∀ x, F.parent x = none ∨ F.parent x = some x → f x = x)
    (hstep : ∀ x y, F.parent x = some y → y ≠ x → f x = f y) (x : α) : F.root x = f x := by
  have hclimb : ∀ steps x, f (climb F.parent steps x) = f x := by
    intro steps
    induction steps with
    | zero => exact fun _ => rfl
    | succ steps ih =>
      intro x
      rw [climb]
      split
      · rfl
      · rename_i y hparent
        split
        · rfl
        · rename_i hyx
          rw [ih y, hstep x y hparent hyx]
  rw [← hroot _ (F.parent_root x)]
  exact hclimb _ x

lemma root_parent (h : F.parent x = some y) : F.root x = F.root y := by
  obtain ⟨rank, hrank⟩ := F.grounded
  by_cases hyx : y = x
  · rw [hyx]
  -- One step fewer reaches the same root.
  have hclimb : ∀ steps x, (∃ r, climb F.parent steps x = r ∧
      (F.parent r = none ∨ F.parent r = some r)) → climb F.parent (steps + 1) x =
        climb F.parent steps x := by
    intro steps
    induction steps with
    | zero =>
      rintro x ⟨r, rfl, hr⟩
      rcases hr with hr | hr <;> simp [climb] at hr ⊢ <;> simp [hr]
    | succ steps ih =>
      rintro x ⟨r, hr, hend⟩
      rw [climb, climb]
      cases hparent : F.parent x with
      | none => rfl
      | some z =>
        by_cases hzx : z = x
        · simp [hzx]
        · simp only [hzx, if_false]
          exact ih z ⟨r, by simpa [climb, hparent, hzx] using hr, hend⟩
  have hend := F.parent_root y
  have hmore := hclimb F.items.length y ⟨_, rfl, hend⟩
  have hx : climb F.parent (F.items.length + 1) x = climb F.parent F.items.length y := by
    simp [climb, h, hyx]
  rw [root, root, ← hx]
  exact (hclimb F.items.length x ⟨_, rfl, F.parent_root x⟩).symm

/-- Ranks fall from an item to its root. -/
lemma rank_root {rank : α → ℕ} (hrank : ∀ x y, F.parent x = some y → y ≠ x → rank y < rank x)
    (h : F.root x ≠ x) : rank (F.root x) < rank x := by
  have hle : ∀ steps x, climb F.parent steps x = x ∨ rank (climb F.parent steps x) < rank x := by
    intro steps
    induction steps with
    | zero => exact fun _ => .inl rfl
    | succ steps ih =>
      intro x
      rw [climb]
      split
      · exact .inl rfl
      · rename_i y hparent
        split
        · exact .inl rfl
        · rename_i hyx
          have hlt := hrank x y hparent hyx
          rcases ih y with hy | hy
          · rw [hy]
            exact .inr hlt
          · exact .inr (Nat.lt_trans hy hlt)
  exact (hle _ x).resolve_left h

lemma root_mem (h : x ∈ F.items) : F.root x ∈ F.items := by
  have hmem : ∀ steps x, x ∈ F.items → climb F.parent steps x ∈ F.items := by
    intro steps
    induction steps with
    | zero => exact fun _ h => h
    | succ steps ih =>
      intro x hx
      rw [climb]
      split
      · exact hx
      · rename_i y hparent
        split
        · exact hx
        · exact ih y (F.closed x y hparent)
  exact hmem _ x h

/-! ### Operations -/

/-- No items. -/
def empty : Forest α where
  parent _ := none
  items := []
  known x := by simp
  closed x y h := by cases h
  grounded := ⟨fun _ => 0, fun x y h => by cases h⟩

/-- Adds an item as a root, unless it is there. -/
def add (F : Forest α) (x : α) : Forest α where
  parent z := if z = x ∧ F.parent x = none then some x else F.parent z
  items := if (F.parent x).isSome then F.items else x :: F.items
  known z := by
    have hknown := F.known z
    split_ifs <;> simp_all
  closed z y h := by
    have hclosed := F.closed z y
    have hknown := F.known x
    split_ifs at h ⊢ <;> simp_all
  grounded := by
    obtain ⟨rank, hrank⟩ := F.grounded
    refine ⟨rank, fun z y h hyz => ?_⟩
    split_ifs at h with hz
    · cases h
      exact absurd hz.1.symm hyz
    · exact hrank z y h hyz

/-- Roots without the items that were just added are roots. -/
@[simp] lemma root_add (F : Forest α) (x z : α) : (F.add x).root z = F.root z := by
  refine (F.add x).root_unique (f := F.root) (fun z h => root_eq_self ?_) (fun z y h hyz => ?_) z
  · simp only [add] at h
    split_ifs at h with hz
    · exact .inl (hz.1 ▸ hz.2)
    · exact h
  · simp only [add] at h
    split_ifs at h with hz
    · cases h
      exact absurd hz.1.symm hyz
    · exact root_parent h

/-- Some items hung directly below their root. -/
structure Hung (F : Forest α) (r : α) (parent : α → Option α) : Prop where
  cases : ∀ z, parent z = F.parent z ∨ parent z = some r ∧ F.root z = r ∧ z ≠ r

lemma Hung.hang {r : α} (hr : F.root r = r) : ∀ {steps : ℕ} {x : α} {parent : α → Option α},
    Hung F r parent → F.root x = r → Hung F r (hang r steps x parent)
  | 0, _, _, h, _ => h
  | steps + 1, x, parent, h, hx => by
    rw [ParentMap.hang]
    split
    · exact h
    · rename_i hxr
      split
      · exact h
      · rename_i y hparent
        refine Hung.hang hr ⟨fun z => ?_⟩ ?_
        · by_cases hz : z = x
          · subst hz
            exact .inr ⟨Function.update_self .., hx, hxr⟩
          · rw [Function.update_of_ne hz]
            exact h.cases z
        · rcases h.cases x with heq | ⟨heq, -, -⟩
          · rw [← root_parent (heq ▸ hparent), hx]
          · obtain rfl : y = r := Option.some.inj (hparent.symm.trans heq)
            exact hr

/-- The forest after some items are hung directly below their root. -/
def Hung.forest {r : α} {parent : α → Option α} (h : Hung F r parent) : Forest α where
  parent := parent
  items := F.items
  known z := by
    rcases h.cases z with heq | ⟨heq, hroot, hz⟩
    · rw [heq, F.known]
    · rw [F.known, heq]
      refine ⟨fun _ => rfl, fun _ => ?_⟩
      by_contra hnone
      exact hz ((root_eq_self (.inl (by simpa using hnone))).symm.trans hroot)
  closed z y hy := by
    rcases h.cases z with heq | ⟨heq, hroot, hz⟩
    · exact F.closed z y (heq ▸ hy)
    · obtain rfl : r = y := Option.some.inj (heq.symm.trans hy)
      refine hroot ▸ root_mem ((F.known z).mpr ?_)
      by_contra hnone
      exact hz ((root_eq_self (.inl (by simpa using hnone))).symm.trans hroot)
  grounded := by
    obtain ⟨rank, hrank⟩ := F.grounded
    refine ⟨rank, fun z y hy hyz => ?_⟩
    rcases h.cases z with heq | ⟨heq, hroot, hz⟩
    · exact hrank z y (heq ▸ hy) hyz
    · obtain rfl : r = y := Option.some.inj (heq.symm.trans hy)
      have hne : F.root z ≠ z := fun h => hz (h.symm.trans hroot)
      exact hroot ▸ rank_root hrank hne

lemma Hung.root_forest {r : α} {parent : α → Option α} (h : Hung F r parent) (z : α) :
    h.forest.root z = F.root z := by
  refine h.forest.root_unique (f := F.root) (fun z hz => ?_) (fun z y hy _ => ?_) z
  · rcases h.cases z with heq | ⟨heq, -, hne⟩
    · exact root_eq_self (heq ▸ hz)
    · have hz' : parent z = none ∨ parent z = some z := hz
      rw [heq] at hz'
      rcases hz' with hz' | hz'
      · cases hz'
      · exact absurd (Option.some.inj hz').symm hne
  · rcases h.cases z with heq | ⟨heq, hroot, -⟩
    · exact root_parent (heq ▸ hy)
    · obtain rfl : r = y := Option.some.inj (heq.symm.trans hy)
      rw [hroot, ← hroot, root_root]

lemma hung_find (F : Forest α) (x : α) :
    Hung F (F.root x) (hang (F.root x) F.items.length x F.parent) :=
  Hung.hang (F.root_root x) ⟨fun _ => .inl rfl⟩ rfl

/-- Looks up the root of an item, adding the item if need be, and hangs the items on the way
directly below the root. -/
def find (F : Forest α) (x : α) : α × Forest α :=
  ((F.add x).root x, ((F.add x).hung_find x).forest)

/-- **Looking up gives the root and changes no root.** -/
lemma find_spec (F : Forest α) (x : α) :
    (F.find x).1 = F.root x ∧ ∀ z, (F.find x).2.root z = F.root z :=
  ⟨F.root_add x x, fun z => (((F.add x).hung_find x).root_forest z).trans (F.root_add x z)⟩

/-- A known root is its own parent. -/
lemma parent_eq_self (h : x ∈ F.items) (hroot : F.root x = x) : F.parent x = some x := by
  rcases F.parent_root x with hnone | hself
  · rw [hroot] at hnone
    rw [F.known, hnone] at h
    cases h
  · rwa [hroot] at hself

lemma mem_items_add (F : Forest α) (x : α) : x ∈ (F.add x).items := by
  unfold add
  simp only
  split
  · rename_i h
    exact (F.known x).mpr h
  · exact List.mem_cons_self

/-- What was looked up is a known root. -/
lemma parent_find (F : Forest α) (x : α) : (F.find x).2.parent (F.find x).1 = some (F.find x).1 := by
  refine parent_eq_self (root_mem (F.mem_items_add x)) ?_
  rw [(F.find_spec x).2, (F.find_spec x).1, root_root]

/-- Known roots stay so when another item is looked up. -/
lemma parent_find_of (h : F.parent y = some y) (x : α) : (F.find x).2.parent y = some y := by
  refine parent_eq_self ?_ ((F.find_spec x).2 y ▸ root_eq_self (.inr h))
  show y ∈ (F.add x).items
  unfold add
  simp only
  have hy : y ∈ F.items := (F.known y).mpr (by rw [h]; rfl)
  split
  · exact hy
  · exact List.mem_cons_of_mem _ hy

/-- Hangs a root below another one. -/
def link (F : Forest α) (child above : α) (habove : F.parent above = some above)
    (hchild : F.parent child = some child) (hne : child ≠ above) : Forest α where
  parent := Function.update F.parent child (some above)
  items := F.items
  known z := by
    by_cases hz : z = child
    · subst hz
      rw [Function.update_self, F.known, hchild]
      exact ⟨fun _ => rfl, fun _ => rfl⟩
    · rw [Function.update_of_ne hz, F.known]
  closed z y h := by
    by_cases hz : z = child
    · subst hz
      rw [Function.update_self] at h
      exact Option.some.inj h ▸ (F.known above).mpr (by rw [habove]; rfl)
    · rw [Function.update_of_ne hz] at h
      exact F.closed z y h
  grounded := by
    obtain ⟨rank, hrank⟩ := F.grounded
    -- Everything below the child moves above the rank of its new root.
    refine ⟨fun z => if F.root z = child then rank z + rank above + 1 else rank z,
      fun z y h hyz => ?_⟩
    by_cases hz : z = child
    · subst hz
      rw [Function.update_self] at h
      obtain rfl := Option.some.inj h
      have hroot : F.root above = above := root_eq_self (.inr habove)
      simp only [hroot, root_eq_self (.inr hchild), if_true, hne.symm, if_false]
      omega
    · rw [Function.update_of_ne hz] at h
      have hlt := hrank z y h hyz
      simp only [root_parent h]
      split <;> omega

lemma root_link {child above : α} (habove : F.parent above = some above)
    (hchild : F.parent child = some child) (hne : child ≠ above) (z : α) :
    (F.link child above habove hchild hne).root z =
      if F.root z = child then above else F.root z := by
  refine (F.link child above habove hchild hne).root_unique
    (f := fun z => if F.root z = child then above else F.root z) (fun z h => ?_)
      (fun z y h _ => ?_) z
  · have hz : z ≠ child := by
      rintro rfl
      simp only [link, Function.update_self] at h
      rcases h with h | h
      · cases h
      · exact hne (Option.some.inj h).symm
    simp only [link, Function.update_of_ne hz] at h
    simp only [root_eq_self h, hz, if_false]
  · by_cases hz : z = child
    · subst hz
      simp only [link, Function.update_self] at h
      obtain rfl := Option.some.inj h
      simp [root_eq_self (.inr habove), root_eq_self (.inr hchild), hne.symm]
    · simp only [link, Function.update_of_ne hz] at h
      simp only [root_parent h]

/-- Brings the items of two roots below one of them: the left one, unless the right one is better. -/
def merge (better : α → α → Bool) (F : Forest α) (left right : α) : Forest α :=
  let l := F.find left
  let r := l.2.find right
  if h : l.1 = r.1 then r.2
  else if better r.1 l.1 then
    r.2.link l.1 r.1 (l.2.parent_find right) (parent_find_of (F.parent_find left) right) h
  else
    r.2.link r.1 l.1 (parent_find_of (F.parent_find left) right) (l.2.parent_find right) (Ne.symm h)

/-- **Merging gives the items of one root the other one.** -/
lemma root_merge (better : α → α → Bool) (F : Forest α) (left right z : α) :
    (F.merge better left right).root z =
      if F.root left = F.root right then F.root z
      else if better (F.root right) (F.root left) then
        if F.root z = F.root left then F.root right else F.root z
      else if F.root z = F.root right then F.root left else F.root z := by
  have hl := (F.find_spec left).1
  have hr : ((F.find left).2.find right).1 = F.root right :=
    ((F.find left).2.find_spec right).1.trans ((F.find_spec left).2 right)
  have hz : ((F.find left).2.find right).2.root z = F.root z :=
    (((F.find left).2.find_spec right).2 z).trans ((F.find_spec left).2 z)
  unfold merge
  by_cases heq : F.root left = F.root right
  · rw [dif_pos (by rw [hl, hr, heq]), if_pos heq, hz]
  · rw [dif_neg (by rw [hl, hr]; exact heq), if_neg heq]
    by_cases hbetter : better (F.root right) (F.root left) = true
    · rw [if_pos (by rw [hl, hr]; exact hbetter), if_pos hbetter, root_link, hz, hl, hr]
    · rw [if_neg (by rw [hl, hr]; exact hbetter), if_neg hbetter, root_link, hz, hl, hr]

end Forest

end Verax.Lib.ParentMap
