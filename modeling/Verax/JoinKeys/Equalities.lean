import Verax.JoinKeys.Builder

/-!
# Equalities that rows satisfy

The columns a node makes equal compare alike in every row it delivers, and two rows that a join pairs
compare alike in the columns that the join connects.

* `equates_sound`: the columns a node makes equal.
* `sideKey_of_connects`: the columns of the inputs of a join, on a pair of rows it joins.
* `truth_equality`, `truth_makeEq`: when an equality is true.
-/

namespace Verax.JoinKeys

open Lib Lib.BagJoin

variable {V : Type} {run : Run V}

/-! ### Closures -/

/-- What is kept by each step of a connection is kept by the connection. -/
lemma eq_of_eqvGen {α β : Type*} {R : α → α → Prop} (f : α → β) (h : ∀ a b, R a b → f a = f b)
    {a b : α} (hab : Relation.EqvGen R a b) : f a = f b := by
  induction hab with
  | rel a b hR => exact h a b hR
  | refl a => rfl
  | symm a b _ ih => exact ih.symm
  | trans a b c _ _ ihab ihbc => exact ihab.trans ihbc

/-! ### Rows of a join -/

/-- What equality compares of a column of a joined pair of rows. -/
def Run.sideKey (run : Run V) (l r : Option (Row V)) (x : Column ⊕ Column) : Option V :=
  (valueAt l r x).bind run.key

lemma sideKey_inl (l : Row V) (r : Option (Row V)) (c : Column) :
    run.sideKey (some l) r (.inl c) = run.columnKey l c := rfl

lemma sideKey_inr (l : Option (Row V)) (r : Row V) (c : Column) :
    run.sideKey l (some r) (.inr c) = run.columnKey r c := rfl

/-- Columns of one input compare alike in its rows, and where there is no row. -/
lemma sideKey_eq_of_onSide {left right : Column → Column → Prop} {l r : Option (Row V)}
    (hl : ∀ row, l = some row → ∀ c d, left c d → run.columnKey row c = run.columnKey row d)
    (hr : ∀ row, r = some row → ∀ c d, right c d → run.columnKey row c = run.columnKey row d)
    {x y : Column ⊕ Column} (h : OnSide left right x y) : run.sideKey l r x = run.sideKey l r y := by
  rcases x with c | c <;> rcases y with d | d
  · cases l with
    | none => rfl
    | some row => exact hl row rfl c d h
  · exact h.elim
  · exact h.elim
  · cases r with
    | none => rfl
    | some row => exact hr row rfl c d h

lemma columnKey_congr {row row' : Row V} {c c' : Column} (h : row c = row' c') :
    run.columnKey row c = run.columnKey row' c' := congrArg (·.bind run.key) h

/-- An output row of a join is made of rows of the inputs, or of one such row. -/
def MadeOf (S : JoinSpec (Row V) V) (A B : Multiset (Row V)) (row : Row V) : Prop :=
  ∃ l r mark, row = S.output l r mark ∧ (∀ a, l = some a → a ∈ A) ∧ ∀ b, r = some b → b ∈ B

lemma madeOf_left {S : JoinSpec (Row V) V} {A A' B : Multiset (Row V)} {row : Row V}
    (hsub : ∀ a ∈ A', a ∈ A) {mark : Row V → Truth}
    (h : row ∈ A'.map fun a => S.output (some a) none (mark a)) : MadeOf S A B row := by
  obtain ⟨a, ha, rfl⟩ := Multiset.mem_map.mp h
  exact ⟨some a, none, mark a, rfl, fun a' ha' => Option.some.inj ha' ▸ hsub a ha, nofun⟩

lemma madeOf_right {S : JoinSpec (Row V) V} {A B B' : Multiset (Row V)} {row : Row V}
    (hsub : ∀ b ∈ B', b ∈ B) {mark : Row V → Truth}
    (h : row ∈ B'.map fun b => S.output none (some b) (mark b)) : MadeOf S A B row := by
  obtain ⟨b, hb, rfl⟩ := Multiset.mem_map.mp h
  exact ⟨none, some b, mark b, rfl, nofun, fun b' hb' => Option.some.inj hb' ▸ hsub b hb⟩

variable [DecidableEq V]

/-! ### Keys -/

/-- An equality is true where both columns have the same key. -/
lemma truth_equality (row : Row V) (c d : Column) :
    run.truth (run.eval row (.equality c d)) = some true ↔
      ∃ k, run.columnKey row c = some k ∧ run.columnKey row d = some k := by
  rw [Run.eval, run.truth_ofTruth]
  cases run.columnKey row c <;> cases run.columnKey row d <;> simp [Truth.eq, eq_comm]

lemma truth_makeEq (row : Row V) (c d : Column) :
    run.truth (run.eval row (makeEq c d)) = some true ↔
      ∃ k, run.columnKey row c = some k ∧ run.columnKey row d = some k := by
  rw [makeEq]
  split_ifs
  · rw [truth_equality]
    exact exists_congr fun k => and_comm
  · exact truth_equality row c d

section spec

variable {left : Node} {J : Join} {l r : Row V}

/-- The comparisons of the keys of two rows. -/
lemma keysEqual_spec : (run.spec left J).keysEqual l r = Truth.all (J.keys.map fun k =>
    (run.spec left J).keyEqual (run.keyOf k.1 l) (run.keyOf k.2 r)) := by
  rw [JoinSpec.keysEqual, Run.spec, List.zipWith_map, List.zipWith_self]

/-- Keys that compare as equal are equal. -/
lemma eq_of_keyEqual {S : JoinSpec (Row V) V} {x y : Option V} (h : S.keyEqual x y = some true) :
    x = y := by
  rw [JoinSpec.keyEqual] at h
  split_ifs at h with hnull
  · exact of_decide_eq_true (Option.some.inj h)
  · rcases x with - | x <;> rcases y with - | y
    · rfl
    · cases h
    · cases h
    · rw [Truth.eq, Option.some.injEq, decide_eq_true_eq] at h
      rw [h]

/-- The keys of two rows that a join pairs are equal. -/
lemma keyOf_eq_of_keysEqual (h : (run.spec left J).keysEqual l r = some true) {k : Expr × Expr}
    (hk : k ∈ J.keys) : run.keyOf k.1 l = run.keyOf k.2 r := by
  rw [keysEqual_spec, Truth.all_eq_true] at h
  exact eq_of_keyEqual (h _ (List.mem_map_of_mem hk))

/-- Columns that a join connects compare alike in two rows that it pairs. -/
lemma sideKey_of_connects {left' right' : Column → Column → Prop}
    (hl : ∀ c d, left' c d → run.columnKey l c = run.columnKey l d)
    (hr : ∀ c d, right' c d → run.columnKey r c = run.columnKey r d)
    (h : (run.spec left J).keysEqual l r = some true) {x y : Column ⊕ Column}
    (hxy : J.Connects left' right' x y) :
    run.sideKey (some l) (some r) x = run.sideKey (some l) (some r) y := by
  refine eq_of_eqvGen _ (fun x y hstep => ?_) hxy
  rcases hstep with hside | hcompares
  · refine sideKey_eq_of_onSide (fun row hrow => ?_) (fun row hrow => ?_) hside
    · exact Option.some.inj hrow ▸ hl
    · exact Option.some.inj hrow ▸ hr
  · rcases x with c | c <;> rcases y with d | d
    · exact hcompares.elim
    · rw [sideKey_inl, sideKey_inr]
      exact keyOf_eq_of_keysEqual h (J.mem_columnPairs.mp hcompares.2)
    · exact hcompares.elim
    · exact hcompares.elim

end spec

/-! ### Rows of nodes -/

section madeOf

variable {S : JoinSpec (Row V) V} {A B out : Multiset (Row V)} {row : Row V}

/-- A matching pair. -/
lemma exists_of_mem_pairs (h : row ∈ S.pairs A B) : ∃ a ∈ A, ∃ b ∈ B, S.on a b = true ∧
    row = S.output (some a) (some b) none := by
  obtain ⟨p, hp, rfl⟩ := Multiset.mem_map.mp h
  obtain ⟨ha, hb, hon⟩ := mem_inner.mp hp
  exact ⟨p.1, ha, p.2, hb, hon, rfl⟩

lemma madeOf_pairs (h : row ∈ S.pairs A B) : MadeOf S A B row := by
  obtain ⟨a, ha, b, hb, -, rfl⟩ := exists_of_mem_pairs h
  exact ⟨some a, some b, none, rfl, fun a' ha' => Option.some.inj ha' ▸ ha,
    fun b' hb' => Option.some.inj hb' ▸ hb⟩

lemma madeOf_leftPads (h : row ∈ S.leftPads A B) : MadeOf S A B row :=
  madeOf_left (fun _ ha => Multiset.mem_of_mem_filter ha) h

lemma madeOf_rightPads (h : row ∈ S.rightPads A B) : MadeOf S A B row :=
  madeOf_right (fun _ hb => Multiset.mem_of_mem_filter hb) h

/-- Every output row of a join is made of rows of the inputs. -/
lemma madeOf_of_mem_outcomes (hout : out ∈ S.outcomes A B) (hrow : row ∈ out) :
    MadeOf S A B row := by
  rw [JoinSpec.outcomes] at hout
  cases hS : S.joinType <;> rw [hS] at hout <;> simp only [Set.mem_singleton_iff] at hout
  case inner =>
    subst hout
    exact madeOf_pairs hrow
  case left =>
    subst hout
    exact (Multiset.mem_add.mp hrow).elim madeOf_pairs madeOf_leftPads
  case right =>
    subst hout
    exact (Multiset.mem_add.mp hrow).elim madeOf_pairs madeOf_rightPads
  case full =>
    subst hout
    rcases Multiset.mem_add.mp hrow with hrow | hrow
    · exact (Multiset.mem_add.mp hrow).elim madeOf_pairs madeOf_leftPads
    · exact madeOf_rightPads hrow
  case leftSemiFilter =>
    subst hout
    exact madeOf_left (fun _ ha => Multiset.mem_of_mem_filter ha) hrow
  case countingLeftSemiFilter =>
    obtain ⟨kept, hkept, rfl⟩ := hout
    exact madeOf_left (fun _ ha => Multiset.mem_of_le hkept.1 ha) hrow
  case leftSemiProject =>
    subst hout
    exact madeOf_left (fun _ ha => ha) hrow
  case rightSemiFilter =>
    subst hout
    exact madeOf_right (fun _ hb => Multiset.mem_of_mem_filter hb) hrow
  case rightSemiProject =>
    subst hout
    exact madeOf_right (fun _ hb => hb) hrow
  case rightAnti =>
    subst hout
    exact madeOf_right (fun _ hb => Multiset.mem_of_mem_filter hb) hrow
  case anti =>
    subst hout
    exact madeOf_left (fun _ ha => Multiset.mem_of_mem_filter ha) hrow
  case countingAnti =>
    obtain ⟨kept, hkept, rfl⟩ := hout
    exact madeOf_left (fun _ ha => Multiset.mem_of_le hkept.1 ha) hrow

end madeOf

/-- A column of an output row, but the mark, holds what its source holds. -/
lemma columnKey_outputRow {left : Node} {J : Join} {l r : Option (Row V)} {mark : Truth}
    {c s : Column} (hsource : J.sourceOf c = some s) :
    run.columnKey ((run.spec left J).output l r mark) c = run.sideKey l r (left.side s) := by
  have hmark : J.markColumn ≠ some c := by
    intro h
    rw [Join.sourceOf, if_pos h] at hsource
    cases hsource
  have hvalue : run.outputRow left J l r mark c = valueAt l r (left.side s) := by
    rw [Run.outputRow, if_neg hmark, hsource]
    rfl
  exact congrArg (·.bind run.key) hvalue

/-- **Columns that a node makes equal compare alike in every row it delivers.** -/
theorem equates_sound : ∀ {node : Node} {bag : Multiset (Row V)}, bag ∈ run.Delivers node →
    ∀ {row : Row V}, row ∈ bag → ∀ {c d : Column}, node.Equates c d →
      run.columnKey row c = run.columnKey row d
  | .source _ _, _, _, _, _, _, _, h => congrArg _ h
  | .operator op input, _, hbag, row', hrow, c, d, h => by
    rcases h with rfl | ⟨hc, hd, h⟩
    · rfl
    · obtain ⟨bag, hinput, hout⟩ := hbag
      rcases run.passes op bag _ hout row' hrow with ⟨row, hmem, hpassed⟩ | hnull
      · rw [columnKey_congr (hpassed c hc), columnKey_congr (hpassed d hd)]
        exact equates_sound hinput hmem h
      · rw [Run.columnKey, Run.columnKey, hnull c hc, hnull d hd]
  | .project input exprs, _, hbag, _, hrow, c, d, h => by
    rcases h with rfl | ⟨c', d', hc, hd, h⟩
    · rfl
    · obtain ⟨bag, hinput, rfl⟩ := hbag
      obtain ⟨row, hmem, rfl⟩ := Multiset.mem_map.mp hrow
      have hvalue : ∀ x x', exprs.find? (·.1 = x) = some (x, .column x') →
          run.projectRow exprs row x = row x' := fun x x' hx => by
        rw [Run.projectRow, hx]
        rfl
      rw [columnKey_congr (hvalue c c' hc), columnKey_congr (hvalue d d' hd)]
      exact equates_sound hinput hmem h
  | .filter input predicates, _, hbag, row, hrow, c, d, h => by
    obtain ⟨bag, hinput, rfl⟩ := hbag
    obtain ⟨hmem, haccepts⟩ := Multiset.mem_filter.mp hrow
    refine eq_of_eqvGen _ (fun x y hxy => ?_) h
    rcases hxy with hequates | hequality
    · exact equates_sound hinput hmem hequates
    · obtain ⟨k, hx, hy⟩ := (truth_equality row x y).mp (haccepts _ hequality)
      exact hx.trans hy.symm
  | .join left right J, _, hbag, row, hrow, c, d, h => by
    rcases h with rfl | ⟨s, t, hs, ht, h⟩
    · rfl
    · obtain ⟨A, hA, B, hB, hout⟩ := hbag
      by_cases hinner : J.joinType = .inner
      · rw [JoinSpec.outcomes, show (run.spec left J).joinType = .inner from hinner] at hout
        obtain rfl := hout
        obtain ⟨a, ha, b, hb, hon, rfl⟩ := exists_of_mem_pairs hrow
        rw [columnKey_outputRow hs, columnKey_outputRow ht]
        have hkeys : (run.spec left J).keysEqual a b = some true :=
          of_decide_eq_true (Bool.and_eq_true_iff.mp hon).1
        exact sideKey_of_connects (fun _ _ => equates_sound hA ha) (fun _ _ => equates_sound hB hb)
          hkeys h
      · obtain ⟨l, r, mark, rfl, hl, hr⟩ := madeOf_of_mem_outcomes hout hrow
        rw [columnKey_outputRow hs, columnKey_outputRow ht]
        refine eq_of_eqvGen _ (fun x y hxy => ?_) h
        rcases hxy with hside | hcompares
        · exact sideKey_eq_of_onSide (fun a ha _ _ => equates_sound hA (hl a ha))
            (fun b hb _ _ => equates_sound hB (hr b hb)) hside
        · rcases x with x | x <;> rcases y with y | y
          · exact hcompares.elim
          · exact absurd hcompares.1 hinner
          · exact hcompares.elim
          · exact hcompares.elim

end Verax.JoinKeys
