import Verax.Plan.Join
import Verax.Lib.Spreads

/-!
# Joins on each task

A join that runs on every task of a stage, each over its own rows, emits what the join of all rows
may emit, if the rows lie so that no task misses a row it needs:

* `gathered_of_together`: rows that match lie on one task.
* `gathered_of_rightWhole`, `gathered_of_leftWhole`: every task has all rows of one side, and the
  join type ties each row it emits to a row of the other.
* `gathered_of_rightShared`, `gathered_of_leftShared`: of a null-aware join, every task has the rows
  of the existence side that its own rows may be equal to, and one more if there is any.
-/

namespace Verax

open Verax.Lib Verax.Lib.BagJoin Verax.Lib.Spreads

namespace JoinType

/-- The types that count the rows of a key. Source: velox `JoinType`. -/
def counts : JoinType → Bool
  | countingLeftSemiFilter | countingAnti => true
  | _ => false

end JoinType

namespace JoinSpec

variable {ρ κ : Type} [DecidableEq κ] (J : JoinSpec ρ κ)

/-! ### What each row gives -/

/-- The pairs that match, if the join emits them. -/
def emittedPairs (A B : Multiset ρ) : Multiset ρ :=
  if J.joinType.keepsBothInputs then J.pairs A B else 0

/-- What the join emits for a left row besides its pairs. -/
def leftRows (B : Multiset ρ) (a : ρ) : Multiset ρ :=
  match J.joinType with
  | .left | .full => if hasPartner J.on B a then 0 else {J.output (some a) none none}
  | .leftSemiFilter => if hasPartner J.on B a then {J.output (some a) none none} else 0
  | .leftSemiProject => {J.output (some a) none (J.leftMark B a)}
  | .anti => if J.leftMark B a = some false then {J.output (some a) none none} else 0
  | _ => 0

/-- What the join emits for a right row besides its pairs. -/
def rightRows (A : Multiset ρ) (b : ρ) : Multiset ρ :=
  match J.joinType with
  | .right | .full => if hasPartner (flip J.on) A b then 0 else {J.output none (some b) none}
  | .rightSemiFilter => if hasPartner (flip J.on) A b then {J.output none (some b) none} else 0
  | .rightSemiProject => {J.output none (some b) (J.rightMark A b)}
  | .rightAnti => if J.rightMark A b = some false then {J.output none (some b) none} else 0
  | _ => 0

omit [DecidableEq κ] in
lemma map_filter_eq_bind {p : ρ → Prop} [DecidablePred p] (f : ρ → ρ) (A : Multiset ρ) :
    (A.filter p).map f = A.bind fun a => if p a then {f a} else 0 := by
  induction A using Multiset.induction_on with
  | empty => rfl
  | cons a A ih =>
      rw [Multiset.filter_cons, Multiset.map_add, Multiset.cons_bind, ih]
      split <;> simp

/-- A join emits its pairs, and what each row gives. -/
lemma outcomes_eq (hcounts : J.joinType.counts = false) (A B : Multiset ρ) :
    J.outcomes A B = {J.emittedPairs A B + A.bind (J.leftRows B) + B.bind (J.rightRows A)} := by
  have hleft : J.leftPads A B =
      A.bind fun a => if hasPartner J.on B a then 0 else {J.output (some a) none none} := by
    rw [leftPads, unmatched, map_filter_eq_bind]
    refine Multiset.bind_congr fun a _ => ?_
    cases hasPartner J.on B a <;> rfl
  have hright : J.rightPads A B =
      B.bind fun b => if hasPartner (flip J.on) A b then 0 else {J.output none (some b) none} := by
    rw [rightPads, unmatched, map_filter_eq_bind]
    refine Multiset.bind_congr fun b _ => ?_
    cases hasPartner (flip J.on) A b <;> rfl
  have hnone : ∀ M : Multiset ρ, (M.bind fun _ => (0 : Multiset ρ)) = 0 := Multiset.bind_zero
  unfold outcomes emittedPairs leftRows rightRows
  cases htype : J.joinType with
  | countingLeftSemiFilter | countingAnti =>
      rw [htype] at hcounts
      cases hcounts
  | inner => simp [JoinType.keepsBothInputs, hnone]
  | left => simp [JoinType.keepsBothInputs, hnone, hleft]
  | right => simp [JoinType.keepsBothInputs, hnone, hright]
  | full => simp [JoinType.keepsBothInputs, hleft, hright]
  | leftSemiFilter => simp [JoinType.keepsBothInputs, hnone, matched, map_filter_eq_bind]
  | rightSemiFilter => simp [JoinType.keepsBothInputs, hnone, matched, map_filter_eq_bind]
  | leftSemiProject => simp [JoinType.keepsBothInputs, hnone]
  | rightSemiProject => simp [JoinType.keepsBothInputs, hnone]
  | anti => simp [JoinType.keepsBothInputs, hnone, map_filter_eq_bind]
  | rightAnti => simp [JoinType.keepsBothInputs, hnone, map_filter_eq_bind]

/-- Nothing is joined to nothing. -/
lemma outcomes_zero : J.outcomes 0 0 = {0} := by
  by_cases hcounts : J.joinType.counts = true
  · have hcounted : ∀ keep : Option (List (Option κ)) → ℕ → ℕ → ℕ, (∀ k, keep k 0 0 = 0) →
        (Multiset.map fun a => J.output (some a) none none) ''
          counted (J.countingKey J.leftKeys) (J.countingKey J.rightKeys) keep 0 0 = {0} := by
      intro keep hkeep
      ext O
      constructor
      · rintro ⟨S, ⟨hle, -⟩, rfl⟩
        rw [Multiset.le_zero.mp hle]
        rfl
      · rintro rfl
        exact ⟨0, ⟨le_rfl, fun k => (hkeep k).symm⟩, rfl⟩
    have hpaired : ∀ k : Option (List (Option κ)), pairedCount k 0 0 = 0 := fun k => by
      unfold pairedCount
      split <;> rfl
    unfold outcomes
    cases htype : J.joinType with
    | countingLeftSemiFilter => exact hcounted _ hpaired
    | countingAnti => exact hcounted _ fun k => by rw [hpaired]
    | _ =>
        rw [htype] at hcounts
        cases hcounts
  · rw [J.outcomes_eq (Bool.eq_false_iff.mpr hcounts)]
    unfold emittedPairs
    split <;> rfl

/-- A row of a full join is a pair that matches, or a row of one side. -/
lemma exists_of_full {J : JoinSpec ρ κ} (hfull : J.joinType = .full) {A B O : Multiset ρ} {x : ρ}
    (hO : O ∈ J.outcomes A B) (hx : x ∈ O) :
    (∃ a ∈ A, ∃ b ∈ B, J.on a b = true ∧ x = J.output (some a) (some b) none) ∨
      (∃ a ∈ A, x = J.output (some a) none none) ∨ ∃ b ∈ B, x = J.output none (some b) none := by
  unfold outcomes at hO
  rw [hfull] at hO
  cases hO
  rcases Multiset.mem_add.mp hx with hx | hx
  · rcases Multiset.mem_add.mp hx with hx | hx
    · obtain ⟨⟨a, b⟩, hp, rfl⟩ := Multiset.mem_map.mp hx
      obtain ⟨ha, hb, hon⟩ := mem_inner.mp hp
      exact .inl ⟨a, ha, b, hb, hon, rfl⟩
    · obtain ⟨a, ha, rfl⟩ := Multiset.mem_map.mp hx
      exact .inr (.inl ⟨a, Multiset.mem_of_mem_filter ha, rfl⟩)
  · obtain ⟨b, hb, rfl⟩ := Multiset.mem_map.mp hx
    exact .inr (.inr ⟨b, Multiset.mem_of_mem_filter hb, rfl⟩)

/-! ### Rows counted together -/

/-- Bags that keep as many rows of each key look alike where the rows of a key do. -/
lemma counted_map_eq {α β γ δ : Type*} [DecidableEq δ] {leftKey : α → Option δ}
    {rightKey : β → Option δ} {keep : Option δ → ℕ → ℕ → ℕ} {A : Multiset α} {B : Multiset β}
    {out : α → γ} (hout : ∀ a ∈ A, ∀ a' ∈ A, leftKey a ≠ none → leftKey a = leftKey a' →
      out a = out a') (hnone : (∀ n m, keep none n m = 0) ∨ ∀ n m, keep none n m = n)
    {S S' : Multiset α} (hS : S ∈ counted leftKey rightKey keep A B)
    (hS' : S' ∈ counted leftKey rightKey keep A B) : S.map out = S'.map out := by
  classical
  have hkeys : S.map leftKey = S'.map leftKey := Multiset.ext.mpr fun k => by rw [hS.2, hS'.2]
  have hcard : ∀ {T : Multiset α}, (T.filter (leftKey · = none)).card =
      (T.map leftKey).count none := fun {T} => by
    rw [Multiset.count_map]
    exact congrArg Multiset.card (Multiset.filter_congr fun a _ => eq_comm)
  -- Rows without a key are all kept, or none is.
  have hunkeyed : S.filter (leftKey · = none) = S'.filter (leftKey · = none) := by
    have hall : ∀ {T}, T ∈ counted leftKey rightKey keep A B →
        (T.filter (leftKey · = none)).card = keep none ((A.map leftKey).count none)
          ((B.map rightKey).count none) := fun hT => by rw [hcard, hT.2]
    rcases hnone with hnone | hnone
    · have hzero : ∀ {T}, T ∈ counted leftKey rightKey keep A B →
          T.filter (leftKey · = none) = 0 := fun hT =>
        Multiset.card_eq_zero.mp (by rw [hall hT, hnone])
      rw [hzero hS, hzero hS']
    · have hwhole : ∀ {T}, T ∈ counted leftKey rightKey keep A B →
          T.filter (leftKey · = none) = A.filter (leftKey · = none) := fun hT =>
        Multiset.eq_of_le_of_card_le (Multiset.filter_le_filter _ hT.1)
          (by rw [hall hT, hnone, hcard])
      rw [hwhole hS, hwhole hS']
  -- What is made of the others is a function of their keys.
  have hkeyed : ∀ {T}, T ≤ A → (T.filter (leftKey · ≠ none)).map (some ∘ out) =
      ((T.map leftKey).filter (· ≠ none)).map fun k =>
        if h : ∃ a ∈ A, leftKey a = k then some (out h.choose) else none := by
    intro T hT
    rw [Multiset.filter_map, Multiset.map_map]
    refine Multiset.map_congr rfl fun a ha => ?_
    obtain ⟨ha, hne⟩ := Multiset.mem_filter.mp ha
    have hex : ∃ a' ∈ A, leftKey a' = leftKey a := ⟨a, Multiset.mem_of_le hT ha, rfl⟩
    rw [Function.comp, Function.comp, dif_pos hex]
    exact congrArg some (hout a (Multiset.mem_of_le hT ha) _ hex.choose_spec.1 hne
      hex.choose_spec.2.symm)
  refine Multiset.map_injective (Option.some_injective γ) ?_
  rw [Multiset.map_map, Multiset.map_map, ← Multiset.filter_add_not (leftKey · = none) S,
    ← Multiset.filter_add_not (leftKey · = none) S', Multiset.map_add, Multiset.map_add,
    hunkeyed, hkeyed hS.1, hkeyed hS'.1, hkeys]

/-- A join emits one bag, if the rows that it counts together are output alike. -/
lemma outcomes_subsingleton {A B : Multiset ρ} (hcounted : J.joinType.counts = true → ∀ a ∈ A,
    ∀ a' ∈ A, J.countingKey J.leftKeys a ≠ none →
      J.countingKey J.leftKeys a = J.countingKey J.leftKeys a' →
        J.output (some a) none none = J.output (some a') none none) :
    (J.outcomes A B).Subsingleton := by
  by_cases hcounts : J.joinType.counts = true
  · have halike := hcounted hcounts
    unfold outcomes
    cases htype : J.joinType with
    | countingLeftSemiFilter =>
        rintro _ ⟨S, hS, rfl⟩ _ ⟨S', hS', rfl⟩
        exact counted_map_eq halike (.inl fun n m => rfl) hS hS'
    | countingAnti =>
        rintro _ ⟨S, hS, rfl⟩ _ ⟨S', hS', rfl⟩
        exact counted_map_eq halike (.inr fun n m => Nat.sub_zero n) hS hS'
    | _ =>
        rw [htype] at hcounts
        cases hcounts
  · rw [J.outcomes_eq (Bool.eq_false_iff.mpr hcounts)]
    exact Set.subsingleton_singleton

/-- As many rows of each key as asked for, if there are as many. -/
lemma exists_le_of_counts {α δ : Type*} [DecidableEq δ] {key : α → δ} (A : Multiset α) :
    ∀ f : δ → ℕ, (∀ k, f k ≤ (A.map key).count k) →
      ∃ S ≤ A, ∀ k, (S.map key).count k = f k := by
  induction A using Multiset.induction_on with
  | empty =>
      intro f hf
      exact ⟨0, le_rfl, fun k => (Nat.le_zero.mp (hf k)).symm⟩
  | cons a A ih =>
      intro f hf
      simp only [Multiset.map_cons, Multiset.count_cons] at hf
      by_cases hfew : f (key a) ≤ (A.map key).count (key a)
      · obtain ⟨S, hle, hcount⟩ := ih f fun k => by
          by_cases hk : k = key a
          · rw [hk]
            exact hfew
          · simpa [hk] using hf k
        exact ⟨S, hle.trans (Multiset.le_cons_self A a), hcount⟩
      · obtain ⟨S, hle, hcount⟩ := ih (fun k => if k = key a then f k - 1 else f k) fun k => by
          have hk := hf k
          split
          · rename_i heq
            rw [if_pos heq] at hk
            omega
          · rename_i hne
            simpa [hne] using hk
        refine ⟨a ::ₘ S, Multiset.cons_le_cons a hle, fun k => ?_⟩
        rw [Multiset.map_cons, Multiset.count_cons, hcount]
        by_cases hk : k = key a
        · subst hk
          simp only [if_true]
          omega
        · simp [hk]

/-- A join emits something, if only no rows. -/
lemma outcomes_nonempty (A B : Multiset ρ) : (J.outcomes A B).Nonempty := by
  by_cases hcounts : J.joinType.counts = true
  · have hcounted : ∀ keep : Option (List (Option κ)) → ℕ → ℕ → ℕ, (∀ k n m, keep k n m ≤ n) →
        ((Multiset.map fun a => J.output (some a) none none) ''
          counted (J.countingKey J.leftKeys) (J.countingKey J.rightKeys) keep A B).Nonempty := by
      intro keep hkeep
      obtain ⟨S, hle, hcount⟩ : ∃ S ≤ A, ∀ k, (S.map (J.countingKey J.leftKeys)).count k =
          keep k ((A.map (J.countingKey J.leftKeys)).count k)
            ((B.map (J.countingKey J.rightKeys)).count k) :=
        exists_le_of_counts A _ fun k => hkeep k _ _
      exact ⟨_, S, ⟨hle, hcount⟩, rfl⟩
    unfold outcomes
    cases htype : J.joinType with
    | countingLeftSemiFilter =>
        refine hcounted _ fun k n m => ?_
        unfold pairedCount
        split
        · exact min_le_left n m
        · exact Nat.zero_le n
    | countingAnti => exact hcounted _ fun k n m => Nat.sub_le n _
    | _ =>
        rw [htype] at hcounts
        cases hcounts
  · rw [J.outcomes_eq (Bool.eq_false_iff.mpr hcounts)]
    exact Set.singleton_nonempty _

/-! ### Rows that match lie on one task -/

section gathered

variable {τ : Type*} [Fintype τ] {J} {L R O : τ → Multiset ρ}

lemma emittedPairs_gathered (h : Together J.on L R) :
    gathered (fun t => J.emittedPairs (L t) (R t)) = J.emittedPairs (gathered L) (gathered R) := by
  unfold emittedPairs pairs
  split
  · rw [← h.inner]
    exact gathered_hom (Multiset.mapAddMonoidHom _) _
  · exact Finset.sum_const_zero

/-- What a join emits task by task, if each row gives on its task what it gives on the whole. -/
lemma gathered_of_rows (hcounts : J.joinType.counts = false)
    (hpairs : gathered (fun t => J.emittedPairs (L t) (R t)) =
      J.emittedPairs (gathered L) (gathered R))
    (hleft : ∀ t, ∀ a ∈ L t, J.leftRows (R t) a = J.leftRows (gathered R) a)
    (hright : ∀ t, ∀ b ∈ R t, J.rightRows (L t) b = J.rightRows (gathered L) b)
    (hO : ∀ t, O t ∈ J.outcomes (L t) (R t)) :
    gathered O ∈ J.outcomes (gathered L) (gathered R) := by
  have hO' : O = fun t => J.emittedPairs (L t) (R t) + (L t).bind (J.leftRows (R t)) +
      (R t).bind (J.rightRows (L t)) := funext fun t => by
    have ht := hO t
    rwa [J.outcomes_eq hcounts] at ht
  rw [J.outcomes_eq hcounts, Set.mem_singleton_iff, hO', ← hpairs, ← gathered_bind,
    ← gathered_bind, gathered, Finset.sum_add_distrib, Finset.sum_add_distrib]
  refine congrArg₂ (· + ·) (congrArg₂ (· + ·) rfl ?_) ?_
  · exact Finset.sum_congr rfl fun t _ => Multiset.bind_congr fun a ha => hleft t a ha
  · exact Finset.sum_congr rfl fun t _ => Multiset.bind_congr fun b hb => hright t b hb

/-- The tasks of a side hold the rows that a partition function places there. -/
structure Placed (J : JoinSpec ρ κ) (place : List (Option κ) → τ) (L R : τ → Multiset ρ) :
    Prop where
  left : ∀ t, ∀ a ∈ L t, place (J.leftKeys.map (· a)) = t
  right : ∀ t, ∀ b ∈ R t, place (J.rightKeys.map (· b)) = t

omit [Fintype τ] in
/-- Rows whose keys are equal have the same keys. -/
lemma keys_eq_of_keysEqual (hlength : J.leftKeys.length = J.rightKeys.length) {a b : ρ}
    (h : (J.keysEqual a b).holds = true) : J.leftKeys.map (· a) = J.rightKeys.map (· b) := by
  have hall := Truth.all_eq_true.mp (of_decide_eq_true h)
  refine List.ext_getElem (by simp [hlength]) fun i hi hi' => ?_
  rw [List.length_map] at hi hi'
  have hpair := hall (J.keyEqual (J.leftKeys[i] a) (J.rightKeys[i] b)) (by
    refine List.mem_iff_getElem.mpr ⟨i, by simp [hi, hi'], by simp⟩)
  rw [List.getElem_map, List.getElem_map]
  unfold keyEqual at hpair
  split at hpair
  · simpa using hpair
  · cases hleft : J.leftKeys[i] a with
    | none =>
        rw [hleft] at hpair
        cases hpair
    | some v =>
        cases hright : J.rightKeys[i] b with
        | none =>
            rw [hleft, hright] at hpair
            cases hpair
        | some w =>
            rw [hleft, hright] at hpair
            simpa [Truth.eq] using hpair

omit [Fintype τ] in
/-- Rows placed by their keys lie with those they match. -/
lemma Placed.together {place : List (Option κ) → τ} (h : J.Placed place L R)
    (hlength : J.leftKeys.length = J.rightKeys.length) : Together J.on L R := by
  intro t s a ha b hb hon
  have hkeys := keys_eq_of_keysEqual hlength (Bool.and_eq_true_iff.mp hon).1
  rw [← h.left t a ha, ← h.right s b hb, hkeys]

omit [Fintype τ] [DecidableEq κ] in
/-- Rows placed by their keys lie with those of the same key. -/
lemma Placed.keys [Nonempty τ] {place : List (Option κ) → τ} (h : J.Placed place L R)
    (k : List (Option κ)) : ∃ t, ∀ s, s ≠ t → (∀ a ∈ L s, J.countingKey J.leftKeys a ≠ some k) ∧
      ∀ b ∈ R s, J.countingKey J.rightKeys b ≠ some k := by
  have hkey : ∀ {keys : List (ρ → Option κ)} {a : ρ}, J.countingKey keys a = some k →
      keys.map (· a) = k := by
    intro keys a ha
    unfold countingKey at ha
    split at ha
    · exact Option.some.inj ha
    · cases ha
  refine ⟨place k, fun s hs => ⟨fun a ha heq => hs ?_, fun b hb heq => hs ?_⟩⟩
  · rw [← hkey heq, h.left s a ha]
  · rw [← hkey heq, h.right s b hb]

/-- **Rows placed by their join keys are joined task by task.** -/
theorem gathered_of_together [Nonempty τ] {place : List (Option κ) → τ} (h : J.Placed place L R)
    (hlength : J.leftKeys.length = J.rightKeys.length) (haware : J.nullAware = false)
    (hO : ∀ t, O t ∈ J.outcomes (L t) (R t)) :
    gathered O ∈ J.outcomes (gathered L) (gathered R) := by
  have htogether := h.together hlength
  have hleft : ∀ t, ∀ a ∈ L t, hasPartner J.on (gathered R) a = hasPartner J.on (R t) a :=
    fun t a ha => htogether.hasPartner ha
  have hright : ∀ t, ∀ b ∈ R t,
      hasPartner (flip J.on) (gathered L) b = hasPartner (flip J.on) (L t) b :=
    fun t b hb => htogether.flip.hasPartner hb
  by_cases hcounts : J.joinType.counts = true
  · have hcounted : ∀ (keep : Option (List (Option κ)) → ℕ → ℕ → ℕ) (c : ℕ),
        (∀ n m, keep none n m = c * n) → (∀ k, keep (some k) 0 0 = 0) →
        (∀ t, O t ∈ (Multiset.map fun a => J.output (some a) none none) ''
          counted (J.countingKey J.leftKeys) (J.countingKey J.rightKeys) keep (L t) (R t)) →
        gathered O ∈ (Multiset.map fun a => J.output (some a) none none) ''
          counted (J.countingKey J.leftKeys) (J.countingKey J.rightKeys) keep (gathered L)
            (gathered R) := by
      intro keep c hnone hzero hO
      choose S hS hmap using hO
      refine ⟨gathered S, counted_gathered hnone hzero h.keys hS, ?_⟩
      rw [show O = _ from funext fun t => (hmap t).symm]
      exact (gathered_hom (Multiset.mapAddMonoidHom _) S).symm
    unfold outcomes at hO ⊢
    cases htype : J.joinType with
    | countingLeftSemiFilter =>
        rw [htype] at hO
        exact hcounted _ 0 (fun n m => (Nat.zero_mul n).symm) (fun k => rfl) hO
    | countingAnti =>
        rw [htype] at hO
        exact hcounted _ 1 (fun n m => (Nat.one_mul n).symm) (fun k => rfl) hO
    | _ =>
        rw [htype] at hcounts
        cases hcounts
  · refine gathered_of_rows (Bool.eq_false_iff.mpr hcounts) (emittedPairs_gathered htogether)
      (fun t a ha => ?_) (fun t b hb => ?_) hO
    · unfold leftRows leftMark mark
      rw [haware, if_neg Bool.false_ne_true, if_neg Bool.false_ne_true, hleft t a ha]
    · unfold rightRows rightMark mark
      rw [haware, if_neg Bool.false_ne_true, if_neg Bool.false_ne_true, hright t b hb]

/-! ### Whole copies of one side -/

lemma emittedPairs_gathered_left (B : Multiset ρ) :
    gathered (fun t => J.emittedPairs (L t) B) = J.emittedPairs (gathered L) B := by
  unfold emittedPairs pairs
  split
  · rw [BagJoin.inner, ← gathered_bind]
    exact gathered_hom (Multiset.mapAddMonoidHom _) _
  · exact Finset.sum_const_zero

lemma emittedPairs_gathered_right (A : Multiset ρ) :
    gathered (fun t => J.emittedPairs A (R t)) = J.emittedPairs A (gathered R) := by
  have hzero : BagJoin.inner J.on A 0 = 0 := Multiset.bind_zero A
  have hadd : ∀ B B', BagJoin.inner J.on A (B + B') =
      BagJoin.inner J.on A B + BagJoin.inner J.on A B' := by
    intro B B'
    unfold BagJoin.inner
    rw [← Multiset.bind_add]
    exact Multiset.bind_congr fun a _ => by rw [Multiset.filter_add, Multiset.map_add]
  unfold emittedPairs pairs
  split
  · have hinner : BagJoin.inner J.on A (gathered R) =
        gathered fun t => BagJoin.inner J.on A (R t) :=
      (gathered_hom ⟨⟨BagJoin.inner J.on A, hzero⟩, hadd⟩ R).symm
    rw [hinner]
    exact gathered_hom (Multiset.mapAddMonoidHom _) _
  · exact Finset.sum_const_zero

/-- **Every task has all right rows**, and what the join emits is tied to left rows. -/
theorem gathered_of_rightWhole (hbuild : J.joinType.canBroadcastBuild = true) {B : Multiset ρ}
    (hO : ∀ t, O t ∈ J.outcomes (L t) B) : gathered O ∈ J.outcomes (gathered L) B := by
  have hcounts : J.joinType.counts = false := by
    revert hbuild
    cases J.joinType <;> decide
  have hright : ∀ A, (B.bind (J.rightRows A)) = 0 := by
    intro A
    unfold rightRows
    revert hbuild
    cases J.joinType <;> simp [JoinType.canBroadcastBuild]
  have hO' : O = fun t => J.emittedPairs (L t) B + (L t).bind (J.leftRows B) := funext fun t => by
    have ht := hO t
    rwa [J.outcomes_eq hcounts, hright, add_zero] at ht
  rw [J.outcomes_eq hcounts, Set.mem_singleton_iff, hO', ← emittedPairs_gathered_left,
    ← gathered_bind, hright, add_zero]
  exact Finset.sum_add_distrib

/-- **Every task has all left rows**, and what the join emits is tied to right rows. -/
theorem gathered_of_leftWhole (hprobe : J.joinType.canBroadcastProbe = true) {A : Multiset ρ}
    (hO : ∀ t, O t ∈ J.outcomes A (R t)) : gathered O ∈ J.outcomes A (gathered R) := by
  have hcounts : J.joinType.counts = false := by
    revert hprobe
    cases J.joinType <;> decide
  have hleft : ∀ B, (A.bind (J.leftRows B)) = 0 := by
    intro B
    unfold leftRows
    revert hprobe
    cases J.joinType <;> simp [JoinType.canBroadcastProbe]
  have hO' : O = fun t => J.emittedPairs A (R t) + (R t).bind (J.rightRows A) := funext fun t => by
    have ht := hO t
    rwa [J.outcomes_eq hcounts, hleft, add_zero] at ht
  rw [J.outcomes_eq hcounts, Set.mem_singleton_iff, hO', ← emittedPairs_gathered_right,
    ← gathered_bind, hleft, add_zero]
  exact Finset.sum_add_distrib

/-! ### The existence side of a null-aware join -/

/-- A row asks for the rows that its key places with it, and for those without a key. -/
def asksFor (place : List (Option κ) → τ) (key : ρ → Option κ) (t : τ) (b : ρ) : Prop :=
  place [key b] = t ∨ key b = none

omit [Fintype τ] in
/-- What a task is shown of a bag tells whether its rows are among it, by their one key. A row
without a key is checked against the rows of all tasks, so no filter may choose among them. -/
lemma isAmong_of_shared {place : List (Option κ) → τ} {key key' : ρ → Option κ}
    {keys : ρ → ρ → Truth} {filter : ρ → ρ → Bool}
    (hkeys : ∀ a b, keys a b = Truth.eq (key a) (key' b)) {B : Multiset ρ}
    (h : Shared (asksFor place key') B R) {t : τ} {a : ρ} (ha : place [key a] = t)
    (hfilter : key a = none → ∀ b, filter a b = true) :
    isAmong keys filter (R t) a = isAmong keys filter B a := by
  refine isAmong_of_subset (h.subset t) fun b hb hpasses hne => ?_
  rw [hkeys] at hne
  -- A row without a key may be equal to any row; another to rows of its key and those without one.
  cases hkey : key a with
  | none =>
      obtain ⟨b', hb'⟩ := Multiset.exists_mem_of_ne_zero
        (h.nonempty t fun hzero => Multiset.notMem_zero b (hzero ▸ hb))
      refine ⟨b', hb', hfilter hkey b', ?_⟩
      rw [hkeys, hkeys, hkey]
      cases key' b <;> cases key' b' <;> rfl
  | some v =>
      refine ⟨b, h.shown t b hb ?_, hpasses, rfl⟩
      cases hkey' : key' b with
      | none => exact .inr hkey'
      | some w =>
          rw [hkey, hkey'] at hne
          obtain rfl : v = w := by simpa [Truth.eq] using hne
          exact .inl (by rw [hkey', ← hkey, ha])

/-- A null-aware join on one key. -/
structure NullAware (J : JoinSpec ρ κ) (key key' : ρ → Option κ) : Prop where
  leftKeys : J.leftKeys = [key]
  rightKeys : J.rightKeys = [key']
  nullAware : J.nullAware = true
  nullAsValue : J.nullAsValue = false

variable {key key' : ρ → Option κ}

omit [Fintype τ] in
lemma NullAware.keysEqual (h : J.NullAware key key') (a b : ρ) :
    J.keysEqual a b = Truth.eq (key a) (key' b) := by
  rw [JoinSpec.keysEqual, h.leftKeys, h.rightKeys]
  simp only [List.zipWith_cons_cons, List.zipWith_nil_left, Truth.all_cons, Truth.all_nil, keyEqual,
    h.nullAsValue, Bool.false_eq_true, if_false]
  rcases Truth.eq (key a) (key' b) with - | - | - <;> rfl

/-- **Every task sees enough of the existence side on the right.** -/
theorem gathered_of_rightShared (h : J.NullAware key key')
    (htype : J.joinType = .leftSemiProject ∨ J.joinType = .anti) {place : List (Option κ) → τ}
    (hL : ∀ t, ∀ a ∈ L t, place [key a] = t) {B : Multiset ρ} (hR : Shared (asksFor place key') B R)
    (hfilter : ∀ t, ∀ a ∈ L t, key a = none → ∀ b, J.passesFilter a b = true)
    (hO : ∀ t, O t ∈ J.outcomes (L t) (R t)) : gathered O ∈ J.outcomes (gathered L) B := by
  have hmark : ∀ t, ∀ a ∈ L t, J.leftMark (R t) a = J.leftMark B a := by
    intro t a ha
    unfold leftMark mark
    rw [h.nullAware, if_pos rfl, if_pos rfl]
    exact isAmong_of_shared h.keysEqual hR (hL t a ha) (hfilter t a ha)
  have houtcomes : ∀ t, J.outcomes (L t) (R t) = J.outcomes (L t) B := by
    intro t
    unfold outcomes
    rcases htype with htype | htype
    · rw [htype]
      exact congrArg singleton (Multiset.map_congr rfl fun a ha => by rw [hmark t a ha])
    · rw [htype]
      exact congrArg (fun M => {Multiset.map _ M})
        (Multiset.filter_congr fun a ha => by rw [hmark t a ha])
  refine gathered_of_rightWhole ?_ fun t => houtcomes t ▸ hO t
  rcases htype with htype | htype
  · rw [htype]
    rfl
  · rw [htype]
    rfl

/-- **Every task sees enough of the existence side on the left.** -/
theorem gathered_of_leftShared (h : J.NullAware key key')
    (htype : J.joinType = .rightSemiProject ∨ J.joinType = .rightAnti) {place : List (Option κ) → τ}
    (hR : ∀ t, ∀ b ∈ R t, place [key' b] = t) {A : Multiset ρ} (hL : Shared (asksFor place key) A L)
    (hfilter : ∀ t, ∀ b ∈ R t, key' b = none → ∀ a, J.passesFilter a b = true)
    (hO : ∀ t, O t ∈ J.outcomes (L t) (R t)) : gathered O ∈ J.outcomes A (gathered R) := by
  have hsymm : ∀ x y : Option κ, Truth.eq x y = Truth.eq y x := by
    intro x y
    cases x <;> cases y <;> simp [Truth.eq, eq_comm]
  have hmark : ∀ t, ∀ b ∈ R t, J.rightMark (L t) b = J.rightMark A b := by
    intro t b hb
    unfold rightMark mark
    rw [h.nullAware, if_pos rfl, if_pos rfl]
    exact isAmong_of_shared (fun b a => (h.keysEqual a b).trans (hsymm _ _)) hL (hR t b hb)
      (hfilter t b hb)
  have houtcomes : ∀ t, J.outcomes (L t) (R t) = J.outcomes A (R t) := by
    intro t
    unfold outcomes
    rcases htype with htype | htype
    · rw [htype]
      exact congrArg singleton (Multiset.map_congr rfl fun b hb => by rw [hmark t b hb])
    · rw [htype]
      exact congrArg (fun M => {Multiset.map _ M})
        (Multiset.filter_congr fun b hb => by rw [hmark t b hb])
  refine gathered_of_leftWhole ?_ fun t => houtcomes t ▸ hO t
  rcases htype with htype | htype
  · rw [htype]
    rfl
  · rw [htype]
    rfl

end gathered

end JoinSpec

end Verax
