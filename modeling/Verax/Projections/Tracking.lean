import Verax.Projections.PlanBuilder

/-!
# What a tracker adds

The names that a tracker adds to a mapping, one after the other. An unqualified name means the
column it was added for, unless it is a duplicate; a qualified name means the one column it was
added for, and no column once it was added for two.

* `Holds`: a name was there for a column, or was added for it.
* `Tracked`: what the names mean; `Tracked.add`: one more name.
-/

namespace Verax.Projections

open Names (NameMappings QualifiedName ColumnId NameError)
open Lib.Outcome

/-- A name means a column in a mapping, or was added for it. -/
def Holds (base : NameMappings) (pairs : List (QualifiedName × ColumnId)) (name : QualifiedName)
    (id : ColumnId) : Prop :=
  base.lookup name = some id ∨ (name, id) ∈ pairs

/-- What names mean after some were added for columns. -/
structure Tracked (tracker : NameTracker) (base : NameMappings)
    (pairs : List (QualifiedName × ColumnId)) (m : NameMappings) : Prop where
  unqualified : ∀ name id, m.lookup ⟨none, name⟩ = some id ↔
    base.lookup ⟨none, name⟩ = some id ∨ name ∉ tracker.duplicates ∧ (⟨none, name⟩, id) ∈ pairs
  qualified : ∀ (name : QualifiedName) id, name.alias ≠ none → (m.lookup name = some id ↔
    Holds base pairs name id ∧ ∀ id', Holds base pairs name id' → id' = id)
  ambiguous : ∀ name, name ∈ m.ambiguousNames ↔ name.alias ≠ none ∧
    ∃ id id', id ≠ id' ∧ Holds base pairs name id ∧ Holds base pairs name id'

variable {tracker : NameTracker} {base m m' : NameMappings}
  {pairs : List (QualifiedName × ColumnId)} {name : QualifiedName} {id : ColumnId}

lemma holds_append {pairs' : List (QualifiedName × ColumnId)} :
    Holds base (pairs ++ pairs') name id ↔ Holds base pairs name id ∨ (name, id) ∈ pairs' := by
  rw [Holds, Holds, List.mem_append, or_assoc]

/-- Before any name is added. -/
lemma Tracked.nil (h : base.ambiguousNames = []) : Tracked tracker base [] base where
  unqualified _ _ := by simp
  qualified name id _ := by
    constructor
    · intro hlookup
      refine ⟨.inl hlookup, fun id' hid' => ?_⟩
      rcases hid' with hid' | hid'
      · exact Option.some.inj (hid'.symm.trans hlookup)
      · cases hid'
    · rintro ⟨hlookup | hmem, -⟩
      · exact hlookup
      · cases hmem
  ambiguous name := by
    rw [h]
    constructor
    · exact fun hmem => by cases hmem
    · rintro ⟨-, id, id', hne, hid | hid, hid' | hid'⟩
      · exact absurd (Option.some.inj (hid.symm.trans hid')) hne
      all_goals cases ‹_ ∈ []›

/-- Only what a lookup reads matters. -/
lemma Tracked.congr (h : Tracked tracker base pairs m) (hmappings : m'.mappings = m.mappings)
    (hambiguous : m'.ambiguousNames = m.ambiguousNames) : Tracked tracker base pairs m' := by
  have hlookup : ∀ k, m'.lookup k = m.lookup k := fun k => by
    rw [NameMappings.lookup, NameMappings.lookup, hmappings]
  exact ⟨fun name id => by rw [hlookup]; exact h.unqualified name id,
    fun name id hname => by rw [hlookup]; exact h.qualified name id hname,
    fun name => by rw [hambiguous]; exact h.ambiguous name⟩

/-- A name that is not marked and means nothing is added. -/
lemma Tracked.insert (h : Tracked tracker base pairs m)
    (hname : name.alias = none → name.name ∉ tracker.duplicates)
    (hadd : m.add name id = .ok m') (hmarked : name ∉ m.ambiguousNames) :
    Tracked tracker base (pairs ++ [(name, id)]) m' := by
  obtain ⟨hnone, rfl, hlookup⟩ := NameMappings.lookup_of_add hadd hmarked
  have hnew : name.alias ≠ none → ∀ id', ¬ Holds base pairs name id' := by
    intro halias id' hholds
    by_cases hsole : ∀ id'', Holds base pairs name id'' → id'' = id'
    · rw [(h.qualified name id' halias).mpr ⟨hholds, hsole⟩] at hnone
      cases hnone
    · push Not at hsole
      obtain ⟨id'', hholds'', hne⟩ := hsole
      exact hmarked ((h.ambiguous name).mpr ⟨halias, id'', id', hne, hholds'', hholds⟩)
  have hother : ∀ k, k ≠ name → ∀ id', Holds base (pairs ++ [(name, id)]) k id' ↔
      Holds base pairs k id' := by
    intro k hk id'
    rw [holds_append]
    simp [hk]
  have hself : name.alias ≠ none → ∀ id', Holds base (pairs ++ [(name, id)]) name id' ↔
      id' = id := by
    intro halias id'
    rw [holds_append, or_iff_right (hnew halias id')]
    simp
  refine ⟨fun n id' => ?_, fun k id' hk => ?_, fun k => ?_⟩
  · rw [hlookup]
    split
    · next heq =>
      subst heq
      have hbase := (not_iff_not.mpr (h.unqualified n id')).mp (by simp [hnone])
      rw [not_or] at hbase
      rw [or_iff_right hbase.1, List.mem_append]
      have hpairs : (⟨none, n⟩, id') ∉ pairs := fun hmem => hbase.2 ⟨hname rfl, hmem⟩
      simp [hname rfl, hpairs, eq_comm]
    · next hne =>
      rw [h.unqualified, List.mem_append]
      simp [hne]
  · rw [hlookup]
    split
    · next heq =>
      subst heq
      simp only [hself hk]
      exact ⟨fun heq => by cases heq; exact ⟨rfl, fun _ hid => hid⟩, fun heq => by rw [heq.1]⟩
    · next hne =>
      rw [h.qualified k id' hk]
      simp only [hother k hne]
  · rw [NameMappings.ambiguousNames_insert, h.ambiguous k]
    by_cases hk : k = name
    · subst hk
      constructor
      · rintro ⟨halias, id', id'', -, hholds, -⟩
        exact absurd hholds (hnew halias id')
      · rintro ⟨halias, id', id'', hne, hid', hid''⟩
        rw [hself halias] at hid' hid''
        exact absurd (hid'.trans hid''.symm) hne
    · simp only [hother k hk]

/-- **One more name.** -/
lemma Tracked.add (h : Tracked tracker base pairs m) (hadd : tracker.add m name id = .ok m') :
    Tracked tracker base (pairs ++ [(name, id)]) m' := by
  unfold NameTracker.add at hadd
  split at hadd
  · next halias =>
    have hother : ∀ k : QualifiedName, k.alias ≠ none → ∀ id',
        Holds base (pairs ++ [(name, id)]) k id' ↔ Holds base pairs k id' := by
      intro k hk id'
      rw [holds_append]
      have hne : k ≠ name := fun heq => hk (heq ▸ halias)
      simp [hne]
    split at hadd
    · next hduplicate =>
      cases hadd
      refine ⟨fun n id' => ?_, fun k id' hk => ?_, fun k => ?_⟩
      · rw [h.unqualified, List.mem_append]
        refine or_congr_right (and_congr_right fun hn => ?_)
        have hne : (⟨none, n⟩ : QualifiedName) ≠ name := by
          rintro rfl
          exact hn hduplicate
        simp [hne]
      · rw [h.qualified k id' hk]
        simp only [hother k hk]
      · rw [h.ambiguous k]
        refine and_congr_right fun hk => ?_
        simp only [hother k hk]
    · next hduplicate =>
      exact h.insert (fun _ => hduplicate) hadd fun hmem => ((h.ambiguous name).mp hmem).1 halias
  · next halias =>
    have hunqualified : ∀ n id', (⟨none, n⟩, id') ∈ pairs ++ [(name, id)] ↔
        ((⟨none, n⟩ : QualifiedName), id') ∈ pairs := by
      intro n id'
      have hne : (⟨none, n⟩ : QualifiedName) ≠ name := fun heq => halias (heq ▸ rfl)
      rw [List.mem_append]
      simp [hne]
    unfold NameTracker.addQualified at hadd
    split at hadd
    · next existing hexisting =>
      have hholds : Holds base pairs name existing := ((h.qualified name _ halias).mp hexisting).1
      injection hadd with hadd
      split at hadd
      · next hne =>
        subst hadd
        have htwo : ∃ id' id'', id' ≠ id'' ∧ Holds base (pairs ++ [(name, id)]) name id' ∧
            Holds base (pairs ++ [(name, id)]) name id'' :=
          ⟨existing, id, hne, holds_append.mpr (.inl hholds), holds_append.mpr (.inr (by simp))⟩
        have hother : ∀ k, k ≠ name → ∀ id', Holds base (pairs ++ [(name, id)]) k id' ↔
            Holds base pairs k id' := by
          intro k hk id'
          rw [holds_append]
          simp [hk]
        refine ⟨fun n id' => ?_, fun k id' hk => ?_, fun k => ?_⟩
        · have hn : (⟨none, n⟩ : QualifiedName) ≠ name := fun heq => halias (heq ▸ rfl)
          rw [NameMappings.lookup_markAmbiguous, if_neg hn, h.unqualified, hunqualified]
        · rw [NameMappings.lookup_markAmbiguous]
          split
          · next heq =>
            subst heq
            obtain ⟨id₁, id₂, hne, h₁, h₂⟩ := htwo
            constructor
            · exact fun hfalse => by cases hfalse
            · exact fun hsole => absurd ((hsole.2 id₁ h₁).trans (hsole.2 id₂ h₂).symm) hne
          · next hk' =>
            rw [h.qualified k id' hk]
            simp only [hother k hk']
        · rw [NameMappings.markAmbiguous, List.mem_cons]
          by_cases hk : k = name
          · subst hk
            exact ⟨fun _ => ⟨halias, htwo⟩, fun _ => .inl rfl⟩
          · simp only [hk, false_or, h.ambiguous k, hother k hk]
      · next heq =>
        have heq : existing = id := not_not.mp heq
        subst hadd heq
        have hsame : ∀ k id', Holds base (pairs ++ [(name, existing)]) k id' ↔
            Holds base pairs k id' := by
          intro k id'
          rw [holds_append]
          refine or_iff_left_of_imp fun hmem => ?_
          obtain ⟨rfl, rfl⟩ := Prod.mk.inj (List.mem_singleton.mp hmem)
          exact hholds
        exact ⟨fun n id' => by rw [h.unqualified, hunqualified],
          fun k id' hk => by simp only [h.qualified k id' hk, hsame],
          fun k => by simp only [h.ambiguous k, hsame]⟩
    · next hnone =>
      by_cases hmarked : name ∈ m.ambiguousNames
      · obtain ⟨-, id₁, id₂, hne, h₁, h₂⟩ := (h.ambiguous name).mp hmarked
        have hm : m' = m := by
          unfold NameMappings.add at hadd
          split at hadd
          · cases hadd
          · injection hadd with hadd
            rw [← hadd, NameMappings.insert, if_pos hmarked]
        subst hm
        have hother : ∀ k, k ≠ name → ∀ id', Holds base (pairs ++ [(name, id)]) k id' ↔
            Holds base pairs k id' := by
          intro k hk id'
          rw [holds_append]
          simp [hk]
        have h₁' : Holds base (pairs ++ [(name, id)]) name id₁ := holds_append.mpr (.inl h₁)
        have h₂' : Holds base (pairs ++ [(name, id)]) name id₂ := holds_append.mpr (.inl h₂)
        refine ⟨fun n id' => by rw [h.unqualified, hunqualified], fun k id' hk => ?_, fun k => ?_⟩
        · by_cases hk' : k = name
          · subst hk'
            rw [hnone]
            constructor
            · exact fun hfalse => by cases hfalse
            · exact fun hsole => absurd ((hsole.2 id₁ h₁').trans (hsole.2 id₂ h₂').symm) hne
          · rw [h.qualified k id' hk]
            simp only [hother k hk']
        · by_cases hk' : k = name
          · subst hk'
            exact ⟨fun _ => ⟨halias, id₁, id₂, hne, h₁', h₂'⟩, fun _ => hmarked⟩
          · simp only [h.ambiguous k, hother k hk']
      · exact h.insert (fun hfalse => absurd hfalse halias) hadd hmarked

/-- Names of one column, one after the other. -/
lemma Tracked.foldlM : ∀ {names : List QualifiedName} {pairs : List (QualifiedName × ColumnId)}
    {m : NameMappings}, Tracked tracker base pairs m →
      names.foldlM (fun m name => tracker.add m name id) m = .ok m' →
        Tracked tracker base (pairs ++ names.map fun name => (name, id)) m'
  | [], pairs, m, h, hfold => by
      cases hfold
      simpa using h
  | name :: names, pairs, m, h, hfold => by
      obtain ⟨m₁, hadd, hfold⟩ := foldlM_cons_eq_ok.mp hfold
      have hrest := (h.add hadd).foldlM hfold
      rwa [List.append_assoc] at hrest

/-- A name given by the user. -/
lemma Tracked.addNamed {«alias» : String} (h : Tracked tracker base pairs m)
    (hadd : tracker.addNamed m «alias» id = .ok m') :
    Tracked tracker base (pairs ++ [(⟨none, «alias»⟩, id)]) m' := by
  unfold NameTracker.addNamed at hadd
  split at hadd
  · next hduplicate =>
    obtain ⟨hmappings, hambiguous, -⟩ := NameMappings.of_addUserName hadd
    have hsame : tracker.add m ⟨none, «alias»⟩ id = .ok m := by
      rw [NameTracker.add, if_pos rfl, if_pos hduplicate]
    exact (h.add hsame).congr hmappings hambiguous
  · next hduplicate =>
    obtain ⟨m₁, hm₁, hadd⟩ := bind_eq_ok.mp hadd
    have hnamed : Tracked tracker base (pairs ++ [(⟨none, «alias»⟩, id)]) m₁ := by
      refine h.add ?_
      rw [NameTracker.add, if_pos rfl, if_neg hduplicate]
      exact hm₁
    split at hadd
    · obtain ⟨hmappings, hambiguous, -⟩ := NameMappings.of_addUserName hadd
      exact hnamed.congr hmappings hambiguous
    · cases hadd
      exact hnamed

end Verax.Projections
