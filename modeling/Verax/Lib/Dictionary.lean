import Mathlib.Data.List.AList

/-!
# Dictionaries filled entry by entry

A dictionary has one value for each of its keys. Programs fill dictionaries in loops whose body
looks at a key, and then adds, keeps or drops its entry. This module gives the two ways such loops
treat a key (`emplace`, `removeIf`) and the rule for a loop over entries with distinct keys.

* `lookup_emplace`, `lookup_removeIf`: what the two operations change.
* `foldl_untouched`, `foldl_touched`: a loop whose step touches one key leaves the others, and does
  to each key what its own step does.
* `find?_key`, `mem_of_lookup`: looking up a key in a list.
-/

namespace Verax.Lib.Dictionary

variable {κ ν : Type*} [DecidableEq κ]

/-- One value for each key. -/
abbrev Dict (κ ν : Type*) := AList fun _ : κ => ν

/-- Adds an entry unless the key has one. -/
def emplace (d : Dict κ ν) (k : κ) (v : ν) : Dict κ ν :=
  if k ∈ d then d else d.insert k v

/-- Drops the entries whose key satisfies `p`. -/
def removeIf (p : κ → Bool) (d : Dict κ ν) : Dict κ ν :=
  ⟨d.entries.filter fun e => !p e.1, (d.nodupKeys.sublist List.filter_sublist)⟩

/-! ### Lookups -/

lemma mem_entries_iff {d : Dict κ ν} {k : κ} {v : ν} :
    (⟨k, v⟩ : Σ _ : κ, ν) ∈ d.entries ↔ d.lookup k = some v :=
  AList.mem_lookup_iff.symm

/-- An added entry changes the lookup of its key only, and only if the key had none. -/
lemma lookup_emplace (d : Dict κ ν) (k k' : κ) (v : ν) :
    (emplace d k v).lookup k' = if k' = k then some ((d.lookup k).getD v) else d.lookup k' := by
  unfold emplace
  by_cases hk : k ∈ d
  · obtain ⟨w, hw⟩ := Option.isSome_iff_exists.mp (AList.lookup_isSome.mpr hk)
    rw [if_pos hk]
    split
    · next h => subst h; simp [hw]
    · rfl
  · rw [if_neg hk]
    split
    · next h => subst h; simp [AList.lookup_eq_none.mpr hk]
    · next h => exact AList.lookup_insert_ne h

lemma lookup_erase_eq (d : Dict κ ν) (k k' : κ) :
    (d.erase k).lookup k' = if k' = k then none else d.lookup k' := by
  split
  · next h => subst h; exact AList.lookup_erase _ _
  · next h => exact AList.lookup_erase_ne h

lemma lookup_removeIf (p : κ → Bool) (d : Dict κ ν) (k : κ) :
    (removeIf p d).lookup k = if p k then none else d.lookup k := by
  apply Option.ext
  intro v
  rw [← mem_entries_iff, removeIf, List.mem_filter, mem_entries_iff]
  by_cases hp : p k = true
  · simp [hp]
  · simp [hp]

/-! ### Loops over distinct keys -/

section Loop

variable {σ α β : Type*} {f : σ → α → σ} {o : σ → κ → β} {t : α → κ}

omit [DecidableEq κ] in
/-- A loop leaves what is observed at a key that none of its steps touches. -/
lemma foldl_untouched (h : ∀ s a k, k ≠ t a → o (f s a) k = o s k) :
    ∀ (l : List α) (s : σ) (k : κ), k ∉ l.map t → o (l.foldl f s) k = o s k
  | [], _, _, _ => rfl
  | a :: l, s, k, hk => by
      rw [List.map_cons, List.mem_cons, not_or] at hk
      rw [List.foldl_cons, foldl_untouched h l _ k hk.2, h s a k hk.1]

omit [DecidableEq κ] in
/-- A loop over distinct keys does to the key of each step what this step does. -/
lemma foldl_touched {u : α → β → β} (h : ∀ s a k, k ≠ t a → o (f s a) k = o s k)
    (ht : ∀ s a, o (f s a) (t a) = u a (o s (t a))) :
    ∀ (l : List α) (s : σ), (l.map t).Nodup → ∀ a ∈ l,
      o (l.foldl f s) (t a) = u a (o s (t a))
  | [], _, _, _, ha => by cases ha
  | b :: l, s, hnd, a, ha => by
      rw [List.map_cons, List.nodup_cons] at hnd
      rw [List.foldl_cons]
      rcases List.mem_cons.mp ha with rfl | ha
      · rw [foldl_untouched h l _ _ hnd.1, ht]
      · have hne : t a ≠ t b := by
          intro heq
          exact hnd.1 (heq ▸ List.mem_map_of_mem ha)
        rw [foldl_touched h ht l _ hnd.2 a ha, h s b _ hne]

end Loop

/-! ### Lists with distinct keys -/

/-- An item of a list with distinct keys is found by its key. -/
lemma find?_key {α : Type*} {key : α → κ} : ∀ {l : List α}, (l.map key).Nodup → ∀ {a : α}, a ∈ l →
    l.find? (fun b => decide (key b = key a)) = some a
  | b :: l, hnodup, a, ha => by
      rw [List.map_cons, List.nodup_cons] at hnodup
      rcases List.mem_cons.mp ha with rfl | ha
      · simp
      · have hne : key b ≠ key a := fun heq => hnodup.1 (heq ▸ List.mem_map_of_mem ha)
        rw [List.find?_cons_of_neg (by simpa using hne)]
        exact find?_key hnodup.2 ha

/-- What a lookup finds is an entry. -/
lemma mem_of_lookup {α β : Type*} [BEq α] [LawfulBEq α] {a : α} {b : β} {l : List (α × β)}
    (h : l.lookup a = some b) : (a, b) ∈ l := by
  obtain ⟨before, after, rfl, -⟩ := List.lookup_eq_some_iff.mp h
  exact List.mem_append_right _ List.mem_cons_self

end Verax.Lib.Dictionary
