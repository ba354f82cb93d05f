import Verax.Unnests.Filtering

/-!
# Joins over trees

The rows a join may give for the rows of its inputs. An expression that is not deterministic may
have another value for each row, or for each pair of rows, so values belong to positions of rows.

* `Join.outcomes`: the bags a join may give.
* `Join.Reads`: the columns a join reads of its inputs.
* `outcomes_of_rel`: what a join reads of its rows decides what it gives.
* `outcomes_of_alike_right`, `outcomes_of_alike_left`: semi and anti joins do not see how often a
  row of the side that they only look up is there.
-/

namespace Verax.Unnests

open Lib Lib.PossibleBags Lib.BagJoin

variable {V : Type}

/-! ### What a join gives -/

/-- The value of a mark. -/
def Engine.ofTruth (engine : Engine V) : Truth → V
  | some b => engine.boolean b
  | none => engine.null

/-- The value of a key, `none` for NULL. -/
def Engine.keyValue [DecidableEq V] (engine : Engine V) (value : V) : Option V :=
  if value = engine.null then none else some value

/-- The row that the filter of a join reads. -/
def joinedRow (leftColumns : List Column) (l r : Row V) : Row V :=
  fun c => if c ∈ leftColumns then l c else r c

/-- Values of the expressions of a join, for each row of a side or each two rows. -/
structure Evaluation (V : Type) where
  leftKeys : List (ℕ → V)
  rightKeys : List (ℕ → V)
  joinPredicates : List (ℕ → ℕ → V)

namespace Join

variable (join : Join V) (engine : Engine V) (leftColumns : List Column)

/-- The column that says whether a row has a partner.
Source: `Node.cpp` `Join::markColumn`, `projectsMark`. -/
def markColumn : Option Column :=
  match join.joinType with
  | .leftSemiProject | .rightSemiProject => join.outputColumns.getLast?
  | _ => none

/-- The output row of a left row, a right row and a mark. -/
def outputRow (l r : Option (Row V)) (mark : Truth) : Row V := fun c =>
  match valueOf (join.outputColumns.zip join.sourceColumns) c with
  | some source =>
      if join.markColumn = some source then engine.ofTruth mark
      else ((if source ∈ leftColumns then l else r).map (· source)).getD engine.null
  | none => engine.null

/-- The expressions may have these values on some rows. -/
structure Evaluates (evaluation : Evaluation V) (A B : List (Row V)) : Prop where
  leftKeys : List.Forall₂ (fun e value => ∀ a ∈ A.zipIdx, value a.2 ∈ engine.values a.1 e)
    join.routed.leftKeys evaluation.leftKeys
  rightKeys : List.Forall₂ (fun e value => ∀ b ∈ B.zipIdx, value b.2 ∈ engine.values b.1 e)
    join.routed.rightKeys evaluation.rightKeys
  joinPredicates : List.Forall₂ (fun e value => ∀ a ∈ A.zipIdx, ∀ b ∈ B.zipIdx,
      value a.2 b.2 ∈ engine.values (joinedRow leftColumns a.1 b.1) e)
    join.routed.joinPredicates evaluation.joinPredicates

variable [DecidableEq V]

/-- The join of rows with their positions, for some values of its expressions. -/
def spec (evaluation : Evaluation V) : JoinSpec (Row V × ℕ) V where
  joinType := join.joinType
  leftKeys := evaluation.leftKeys.map fun value a => engine.keyValue (value a.2)
  rightKeys := evaluation.rightKeys.map fun value b => engine.keyValue (value b.2)
  filter := evaluation.joinPredicates.map fun value a b => engine.truth (value a.2 b.2)
  nullAware := join.nullAware
  nullAsValue := join.nullAsValue
  output l r mark :=
    (join.outputRow engine leftColumns (l.map Prod.fst) (r.map Prod.fst) mark, 0)

/-- The bags of rows that the join may give. -/
def outcomes (A B : Multiset (Row V)) : Set (Multiset (Row V)) :=
  {rows | ∃ l r : List (Row V), ↑l = A ∧ ↑r = B ∧ ∃ evaluation : Evaluation V,
    join.Evaluates engine leftColumns evaluation l r ∧
    ∃ outs ∈ (join.spec engine leftColumns evaluation).outcomes ↑l.zipIdx ↑r.zipIdx,
      rows = outs.map Prod.fst}

end Join

/-! ### Rows with their positions -/

section Positions

variable {R : Row V → Row V → Prop}

lemma exists_coe_of_rel {l : List (Row V)} : ∀ {A : Multiset (Row V)}, Multiset.Rel R ↑l A →
    ∃ l' : List (Row V), ↑l' = A ∧ List.Forall₂ R l l' := by
  induction l with
  | nil => exact fun h => ⟨[], (Multiset.rel_zero_left.mp h).symm, .nil⟩
  | cons a l ih =>
      intro A h
      rw [← Multiset.cons_coe, Multiset.rel_cons_left] at h
      obtain ⟨a', A', hrow, hrest, rfl⟩ := h
      obtain ⟨l', rfl, hl'⟩ := ih hrest
      exact ⟨a' :: l', rfl, .cons hrow hl'⟩

lemma rel_zipIdx {l l' : List (Row V)} (h : List.Forall₂ R l l') (k : ℕ) :
    Multiset.Rel (fun a a' : Row V × ℕ => R a.1 a'.1 ∧ a.2 = a'.2) ↑(l.zipIdx k)
      ↑(l'.zipIdx k) := by
  induction h generalizing k with
  | nil => exact Multiset.Rel.zero
  | @cons a a' l l' hrow _ ih =>
      rw [List.zipIdx_cons, List.zipIdx_cons, ← Multiset.cons_coe, ← Multiset.cons_coe]
      exact Multiset.Rel.cons ⟨hrow, rfl⟩ (ih (k + 1))

/-- A row goes with one at the same position. -/
lemma exists_of_mem_zipIdx {l l' : List (Row V)} (h : List.Forall₂ R l l') {a' : Row V × ℕ}
    (ha' : a' ∈ l'.zipIdx) : ∃ a ∈ l.zipIdx, R a.1 a'.1 ∧ a.2 = a'.2 := by
  obtain ⟨a, ha, hrow⟩ := Multiset.exists_mem_of_rel_of_mem
    (Multiset.rel_flip.mpr (rel_zipIdx h 0)) (Multiset.mem_coe.mpr ha')
  exact ⟨a, Multiset.mem_coe.mp ha, hrow⟩

end Positions

/-! ### What a join reads -/

/-- Two rows have the same values in some columns. -/
def Agree (columns : Finset Column) (row row' : Row V) : Prop := ∀ c ∈ columns, row c = row' c

/-- The join reads these columns of its inputs. -/
structure Join.Reads (join : Join V) (leftColumns : List Column)
    (leftReads rightReads : Finset Column) : Prop where
  leftKeys : Expr.columnsAll join.routed.leftKeys ⊆ leftReads
  rightKeys : Expr.columnsAll join.routed.rightKeys ⊆ rightReads
  joinPredicates : ∀ c ∈ Expr.columnsAll join.routed.joinPredicates,
    (c ∈ leftColumns → c ∈ leftReads) ∧ (c ∉ leftColumns → c ∈ rightReads)
  sources : ∀ c ∈ join.sourceColumns, join.markColumn ≠ some c →
    (c ∈ leftColumns → c ∈ leftReads) ∧ (c ∉ leftColumns → c ∈ rightReads)

section Reads

variable {engine : Engine V} {join : Join V} {leftColumns : List Column}
  {leftReads rightReads : Finset Column} {l l' r r' : Row V}

lemma Join.Reads.values_leftKey (h : join.Reads leftColumns leftReads rightReads)
    (hrow : Agree leftReads l l') {e : Expr V} (he : e ∈ join.routed.leftKeys) :
    engine.values l e = engine.values l' e :=
  Engine.values_congr fun c hc => hrow c (h.leftKeys (Expr.columns_subset_columnsAll he hc))

lemma Join.Reads.values_rightKey (h : join.Reads leftColumns leftReads rightReads)
    (hrow : Agree rightReads r r') {e : Expr V} (he : e ∈ join.routed.rightKeys) :
    engine.values r e = engine.values r' e :=
  Engine.values_congr fun c hc => hrow c (h.rightKeys (Expr.columns_subset_columnsAll he hc))

lemma Join.Reads.values_joinPredicate (h : join.Reads leftColumns leftReads rightReads)
    (hleft : Agree leftReads l l') (hright : Agree rightReads r r') {e : Expr V}
    (he : e ∈ join.routed.joinPredicates) :
    engine.values (joinedRow leftColumns l r) e =
      engine.values (joinedRow leftColumns l' r') e := by
  refine Engine.values_congr fun c hc => ?_
  have hread := h.joinPredicates c (Expr.columns_subset_columnsAll he hc)
  unfold joinedRow
  split
  · next hmem => exact hleft c (hread.1 hmem)
  · next hmem => exact hright c (hread.2 hmem)

lemma Join.Reads.outputRow (h : join.Reads leftColumns leftReads rightReads)
    {x x' y y' : Option (Row V)} (hleft : Option.Rel (Agree leftReads) x x')
    (hright : Option.Rel (Agree rightReads) y y') (mark : Truth) :
    join.outputRow engine leftColumns x y mark = join.outputRow engine leftColumns x' y' mark := by
  funext c
  unfold Join.outputRow
  cases hsource : valueOf (join.outputColumns.zip join.sourceColumns) c with
  | none => rfl
  | some source =>
      by_cases hmark : join.markColumn = some source
      · simp only [if_pos hmark]
      · have hmem : source ∈ join.sourceColumns := by
          obtain ⟨p, hp, rfl⟩ := Option.map_eq_some_iff.mp hsource
          exact (List.of_mem_zip (List.mem_of_find?_eq_some hp)).2
        have hread := h.sources source hmem hmark
        simp only [if_neg hmark]
        split
        · next hside =>
            cases hleft with
            | none => rfl
            | some hrow => exact hrow source (hread.1 hside)
        · next hside =>
            cases hright with
            | none => rfl
            | some hrow => exact hrow source (hread.2 hside)

/-- Values on rows are values on rows that have the same to read. -/
lemma Join.Reads.evaluates (h : join.Reads leftColumns leftReads rightReads)
    {evaluation : Evaluation V} {A A' B B' : List (Row V)}
    (hA : List.Forall₂ (Agree leftReads) A A') (hB : List.Forall₂ (Agree rightReads) B B')
    (hevaluates : join.Evaluates engine leftColumns evaluation A B) :
    join.Evaluates engine leftColumns evaluation A' B' where
  leftKeys := by
    refine ((List.forall₂_and_left _ _).mpr ⟨fun _ he => he, hevaluates.leftKeys⟩).imp ?_
    rintro e value ⟨he, hvalue⟩ a' ha'
    obtain ⟨a, ha, hrow, hposition⟩ := exists_of_mem_zipIdx hA ha'
    rw [← h.values_leftKey hrow he, ← hposition]
    exact hvalue a ha
  rightKeys := by
    refine ((List.forall₂_and_left _ _).mpr ⟨fun _ he => he, hevaluates.rightKeys⟩).imp ?_
    rintro e value ⟨he, hvalue⟩ b' hb'
    obtain ⟨b, hb, hrow, hposition⟩ := exists_of_mem_zipIdx hB hb'
    rw [← h.values_rightKey hrow he, ← hposition]
    exact hvalue b hb
  joinPredicates := by
    refine ((List.forall₂_and_left _ _).mpr ⟨fun _ he => he, hevaluates.joinPredicates⟩).imp ?_
    rintro e value ⟨he, hvalue⟩ a' ha' b' hb'
    obtain ⟨a, ha, hleft, hposition⟩ := exists_of_mem_zipIdx hA ha'
    obtain ⟨b, hb, hright, hposition'⟩ := exists_of_mem_zipIdx hB hb'
    rw [← h.values_joinPredicate hleft hright he, ← hposition, ← hposition']
    exact hvalue a ha b hb

/-! ### Rows that go together -/

/-- A row with the columns that are read. -/
private def restrict (engine : Engine V) (columns : Finset Column) (row : Row V) : Row V :=
  fun c => if c ∈ columns then row c else engine.null

private lemma agree_restrict (columns : Finset Column) (row : Row V) :
    Agree columns (restrict engine columns row) row := fun c hc => by rw [restrict, if_pos hc]

private lemma map_restrict {columns : Finset Column} {A A' : List (Row V)}
    (h : List.Forall₂ (Agree columns) A A') :
    A.map (restrict engine columns) = A'.map (restrict engine columns) := by
  induction h with
  | nil => rfl
  | @cons row row' A A' hrow _ ih =>
      rw [List.map_cons, List.map_cons, ih]
      congr 1
      funext c
      unfold restrict
      split
      · next hc => exact hrow c hc
      · rfl

variable [DecidableEq V]

private lemma reads_spec (h : join.Reads leftColumns leftReads rightReads)
    (evaluation : Evaluation V) : (join.spec engine leftColumns evaluation).Reads
      (Prod.map (restrict engine leftReads) id) (Prod.map (restrict engine rightReads) id) where
  leftKeys := by
    intro key hkey a
    obtain ⟨value, -, rfl⟩ := List.mem_map.mp hkey
    rfl
  rightKeys := by
    intro key hkey b
    obtain ⟨value, -, rfl⟩ := List.mem_map.mp hkey
    rfl
  filter := by
    intro p hp a b
    obtain ⟨value, -, rfl⟩ := List.mem_map.mp hp
    rfl
  output := by
    intro a b mark
    have hside : ∀ (columns : Finset Column) (x : Option (Row V × ℕ)), Option.Rel (Agree columns)
        ((x.map (Prod.map (restrict engine columns) id)).map Prod.fst) (x.map Prod.fst) := by
      intro columns x
      cases x with
      | none => exact .none
      | some x => exact .some (agree_restrict columns x.1)
    exact congrArg (·, 0) (h.outputRow (hside leftReads a) (hside rightReads b) mark)

/-- A join gives what it gives over rows with the same to read. -/
lemma outcomes_of_rel (h : join.Reads leftColumns leftReads rightReads)
    {A A' B B' : Multiset (Row V)} (hA : Multiset.Rel (Agree leftReads) A A')
    (hB : Multiset.Rel (Agree rightReads) B B') :
    join.outcomes engine leftColumns A B ⊆ join.outcomes engine leftColumns A' B' := by
  rintro _ ⟨l, r, rfl, rfl, evaluation, hevaluates, outs, houts, rfl⟩
  obtain ⟨l', rfl, hleft⟩ := exists_coe_of_rel hA
  obtain ⟨r', rfl, hright⟩ := exists_coe_of_rel hB
  have hrestrict : ∀ l r : List (Row V),
      (join.spec engine leftColumns evaluation).outcomes
        ↑(l.map (restrict engine leftReads)).zipIdx ↑(r.map (restrict engine rightReads)).zipIdx =
      (join.spec engine leftColumns evaluation).outcomes ↑l.zipIdx ↑r.zipIdx := by
    intro l r
    rw [List.zipIdx_map, List.zipIdx_map, ← Multiset.map_coe, ← Multiset.map_coe]
    exact (reads_spec h evaluation).outcomes _ _
  refine ⟨l', r', rfl, rfl, evaluation, h.evaluates hleft hright hevaluates, outs, ?_, rfl⟩
  rwa [← hrestrict, ← map_restrict hleft, ← map_restrict hright, hrestrict]

end Reads

/-! ### Deterministic joins -/

section Deterministic

variable {engine : Engine V} {names : FunctionNames} {join : Join V} {leftColumns : List Column}
  {leftReads rightReads : Finset Column}

/-- The expressions of a join have values. -/
lemma exists_evaluates (hlawful : engine.Lawful names) (A B : List (Row V)) :
    ∃ evaluation, join.Evaluates engine leftColumns evaluation A B := by
  choose value hvalue using hlawful.values_nonempty
  have hat : ∀ {l : List (Row V)} {a : Row V × ℕ}, a ∈ l.zipIdx → l[a.2]? = some a.1 :=
    fun ha => List.mem_zipIdx_iff_getElem?.mp ha
  refine ⟨⟨join.routed.leftKeys.map fun e i => value ((A[i]?).getD fun _ => engine.null) e,
    join.routed.rightKeys.map fun e i => value ((B[i]?).getD fun _ => engine.null) e,
    join.routed.joinPredicates.map fun e i j => value (joinedRow leftColumns
      ((A[i]?).getD fun _ => engine.null) ((B[j]?).getD fun _ => engine.null)) e⟩, ?_, ?_, ?_⟩
  · refine List.forall₂_map_right_iff.mpr (List.forall₂_same.mpr fun e _ a ha => ?_)
    dsimp only
    rw [hat ha]
    exact hvalue a.1 e
  · refine List.forall₂_map_right_iff.mpr (List.forall₂_same.mpr fun e _ b hb => ?_)
    dsimp only
    rw [hat hb]
    exact hvalue b.1 e
  · refine List.forall₂_map_right_iff.mpr (List.forall₂_same.mpr fun e _ a ha b hb => ?_)
    dsimp only
    rw [hat ha, hat hb]
    exact hvalue (joinedRow leftColumns a.1 b.1) e

private lemma map_eq_of_forall₂ {β β' γ : Type} {P : Expr V → β → Prop} {Q : Expr V → β' → Prop}
    {f : β → γ} {g : β' → γ} {es : List (Expr V)} {vs : List β} (h : List.Forall₂ P es vs) :
    ∀ {ws : List β'}, List.Forall₂ Q es ws →
      (∀ e ∈ es, ∀ v w, P e v → Q e w → f v = g w) → vs.map f = ws.map g := by
  induction h with
  | nil =>
      rintro _ ⟨⟩ _
      rfl
  | @cons e v es vs hv _ ih =>
      rintro _ (_ | ⟨hw, hws⟩) hsame
      rw [List.map_cons, List.map_cons, hsame e List.mem_cons_self _ _ hv hw,
        ih hws fun e he => hsame e (List.mem_cons_of_mem _ he)]

lemma exists_mem_zipIdx {l : List (Row V)} {row : Row V} (h : row ∈ l) :
    ∃ a ∈ l.zipIdx, a.1 = row :=
  List.mem_map.mp (by rwa [List.zipIdx_map_fst])

/-- The expressions of a join are deterministic. -/
structure Join.Deterministic (join : Join V) (names : FunctionNames) : Prop where
  leftKeys : Expr.anyNonDeterministic names join.routed.leftKeys = false
  rightKeys : Expr.anyNonDeterministic names join.routed.rightKeys = false
  joinPredicates : Expr.anyNonDeterministic names join.routed.joinPredicates = false

variable [DecidableEq V]

section Pairs

variable {A A' B B' : List (Row V)} {evaluation evaluation' : Evaluation V} {a a' b b' : Row V × ℕ}

/-- Two rows match as rows with the same to read do. -/
private lemma same_pair (hlawful : engine.Lawful names) (hdet : join.Deterministic names)
    (hreads : join.Reads leftColumns leftReads rightReads)
    (h : join.Evaluates engine leftColumns evaluation A B)
    (h' : join.Evaluates engine leftColumns evaluation' A' B')
    (ha : a ∈ A.zipIdx) (ha' : a' ∈ A'.zipIdx) (hleft : Agree leftReads a.1 a'.1)
    (hb : b ∈ B.zipIdx) (hb' : b' ∈ B'.zipIdx) (hright : Agree rightReads b.1 b'.1) :
    (join.spec engine leftColumns evaluation).keysEqual a b =
        (join.spec engine leftColumns evaluation').keysEqual a' b' ∧
      (join.spec engine leftColumns evaluation).passesFilter a b =
        (join.spec engine leftColumns evaluation').passesFilter a' b' := by
  have hleftKeys : evaluation.leftKeys.map (fun value => engine.keyValue (value a.2)) =
      evaluation'.leftKeys.map fun value => engine.keyValue (value a'.2) := by
    refine map_eq_of_forall₂ h.leftKeys h'.leftKeys fun e he v w hv hw => ?_
    have hvalue := hv a ha
    rw [hreads.values_leftKey hleft he] at hvalue
    rw [hlawful.values_unique (Expr.anyNonDeterministic_eq_false.mp hdet.leftKeys e he) hvalue
      (hw a' ha')]
  have hrightKeys : evaluation.rightKeys.map (fun value => engine.keyValue (value b.2)) =
      evaluation'.rightKeys.map fun value => engine.keyValue (value b'.2) := by
    refine map_eq_of_forall₂ h.rightKeys h'.rightKeys fun e he v w hv hw => ?_
    have hvalue := hv b hb
    rw [hreads.values_rightKey hright he] at hvalue
    rw [hlawful.values_unique (Expr.anyNonDeterministic_eq_false.mp hdet.rightKeys e he) hvalue
      (hw b' hb')]
  have hfilter : evaluation.joinPredicates.map (fun value => engine.truth (value a.2 b.2)) =
      evaluation'.joinPredicates.map fun value => engine.truth (value a'.2 b'.2) := by
    refine map_eq_of_forall₂ h.joinPredicates h'.joinPredicates fun e he v w hv hw => ?_
    have hvalue := hv a ha b hb
    rw [hreads.values_joinPredicate hleft hright he] at hvalue
    rw [hlawful.values_unique (Expr.anyNonDeterministic_eq_false.mp hdet.joinPredicates e he)
      hvalue (hw a' ha' b' hb')]
  constructor
  · simp only [JoinSpec.keysEqual_eq, Join.spec, List.map_map, Function.comp_def, hleftKeys,
      hrightKeys]
    rfl
  · simp only [JoinSpec.passesFilter, Join.spec, List.map_map, Function.comp_def, hfilter]

end Pairs

/-- A semi or anti join does not see how often a row of its right side is there. -/
lemma outcomes_of_alike_right (hlawful : engine.Lawful names) (hdet : join.Deterministic names)
    (hreads : join.Reads leftColumns leftReads rightReads)
    (hjoin : join.joinType = .leftSemiFilter ∨ join.joinType = .leftSemiProject ∨
      join.joinType = .anti) {A A' B B' : Multiset (Row V)}
    (hA : Multiset.Rel (Agree leftReads) A A') (hB : Alike true (Agree rightReads) B B') :
    join.outcomes engine leftColumns A B ⊆ join.outcomes engine leftColumns A' B' := by
  rintro _ ⟨l, r, rfl, rfl, evaluation, hevaluates, outs, houts, rfl⟩
  obtain ⟨l', rfl, hleft⟩ := exists_coe_of_rel hA
  obtain ⟨r', rfl⟩ := Quot.exists_rep B'
  obtain ⟨evaluation', hevaluates'⟩ :
      ∃ evaluation', join.Evaluates engine leftColumns evaluation' l' r' :=
    exists_evaluates hlawful l' r'
  have hrows : Multiset.Rel (JoinSpec.SameLeft (join.spec engine leftColumns evaluation)
      (join.spec engine leftColumns evaluation') ↑r.zipIdx ↑r'.zipIdx) ↑l.zipIdx ↑l'.zipIdx := by
    refine (rel_zipIdx hleft 0).mono fun a ha a' ha' ⟨hrow, _⟩ => ⟨⟨?_, ?_⟩, fun m => ?_⟩
    · intro b hb
      obtain ⟨row', hrow', hagree⟩ := hB.1 b.1 (List.fst_mem_of_mem_zipIdx hb)
      obtain ⟨b', hb', rfl⟩ := exists_mem_zipIdx hrow'
      exact ⟨b', hb', same_pair hlawful hdet hreads hevaluates hevaluates' ha ha' hrow hb hb'
        hagree⟩
    · intro b' hb'
      obtain ⟨row, hrow', hagree⟩ := hB.2 b'.1 (List.fst_mem_of_mem_zipIdx hb')
      obtain ⟨b, hb, rfl⟩ := exists_mem_zipIdx hrow'
      exact ⟨b, hb, same_pair hlawful hdet hreads hevaluates hevaluates' ha ha' hrow hb hb'
        hagree⟩
    · exact congrArg (·, 0) (hreads.outputRow (.some hrow) .none m)
  have heq : (join.spec engine leftColumns evaluation).outcomes ↑l.zipIdx ↑r.zipIdx =
      (join.spec engine leftColumns evaluation').outcomes ↑l'.zipIdx ↑r'.zipIdx :=
    JoinSpec.outcomes_of_sameLeft rfl rfl hjoin hrows
  exact ⟨l', r', rfl, rfl, evaluation', hevaluates', outs, heq ▸ houts, rfl⟩

/-- A semi or anti join does not see how often a row of its left side is there. -/
lemma outcomes_of_alike_left (hlawful : engine.Lawful names) (hdet : join.Deterministic names)
    (hreads : join.Reads leftColumns leftReads rightReads)
    (hjoin : join.joinType = .rightSemiFilter ∨ join.joinType = .rightSemiProject ∨
      join.joinType = .rightAnti) {A A' B B' : Multiset (Row V)}
    (hA : Alike true (Agree leftReads) A A') (hB : Multiset.Rel (Agree rightReads) B B') :
    join.outcomes engine leftColumns A B ⊆ join.outcomes engine leftColumns A' B' := by
  rintro _ ⟨l, r, rfl, rfl, evaluation, hevaluates, outs, houts, rfl⟩
  obtain ⟨r', rfl, hright⟩ := exists_coe_of_rel hB
  obtain ⟨l', rfl⟩ := Quot.exists_rep A'
  obtain ⟨evaluation', hevaluates'⟩ :
      ∃ evaluation', join.Evaluates engine leftColumns evaluation' l' r' :=
    exists_evaluates hlawful l' r'
  have hrows : Multiset.Rel (JoinSpec.SameRight (join.spec engine leftColumns evaluation)
      (join.spec engine leftColumns evaluation') ↑l.zipIdx ↑l'.zipIdx) ↑r.zipIdx ↑r'.zipIdx := by
    refine (rel_zipIdx hright 0).mono fun b hb b' hb' ⟨hrow, _⟩ => ⟨⟨?_, ?_⟩, fun m => ?_⟩
    · intro a ha
      obtain ⟨row', hrow', hagree⟩ := hA.1 a.1 (List.fst_mem_of_mem_zipIdx ha)
      obtain ⟨a', ha', rfl⟩ := exists_mem_zipIdx hrow'
      exact ⟨a', ha', same_pair hlawful hdet hreads hevaluates hevaluates' ha ha' hagree hb hb'
        hrow⟩
    · intro a' ha'
      obtain ⟨row, hrow', hagree⟩ := hA.2 a'.1 (List.fst_mem_of_mem_zipIdx ha')
      obtain ⟨a, ha, rfl⟩ := exists_mem_zipIdx hrow'
      exact ⟨a, ha, same_pair hlawful hdet hreads hevaluates hevaluates' ha ha' hagree hb hb'
        hrow⟩
    · exact congrArg (·, 0) (hreads.outputRow .none (.some hrow) m)
  have heq : (join.spec engine leftColumns evaluation).outcomes ↑l.zipIdx ↑r.zipIdx =
      (join.spec engine leftColumns evaluation').outcomes ↑l'.zipIdx ↑r'.zipIdx :=
    JoinSpec.outcomes_of_sameRight rfl rfl hjoin hrows
  exact ⟨l', r', rfl, rfl, evaluation', hevaluates', outs, heq ▸ houts, rfl⟩

/-- Which inputs of a join may repeat rows. -/
def Join.MayRepeat (join : Join V) (names : FunctionNames) (left right : Bool) : Prop :=
  (left = true → join.Deterministic names ∧ (join.joinType = .rightSemiFilter ∨
    join.joinType = .rightSemiProject ∨ join.joinType = .rightAnti)) ∧
  (right = true → join.Deterministic names ∧ (join.joinType = .leftSemiFilter ∨
    join.joinType = .leftSemiProject ∨ join.joinType = .anti))

/-- A join over inputs that go together, as far as it sees. -/
lemma outcomes_of_alike (hlawful : engine.Lawful names)
    (hreads : join.Reads leftColumns leftReads rightReads) {repeats repeats' : Bool}
    (hrepeat : join.MayRepeat names repeats repeats') {A A' B B' : Multiset (Row V)}
    (hA : Alike repeats (Agree leftReads) A A') (hB : Alike repeats' (Agree rightReads) B B') :
    join.outcomes engine leftColumns A B ⊆ join.outcomes engine leftColumns A' B' := by
  cases repeats with
  | true =>
      obtain ⟨hdet, hjoin⟩ := hrepeat.1 rfl
      cases repeats' with
      | true =>
          obtain ⟨-, hjoin'⟩ := hrepeat.2 rfl
          rcases hjoin with hjoin | hjoin | hjoin <;> rw [hjoin] at hjoin' <;> simp at hjoin'
      | false => exact outcomes_of_alike_left hlawful hdet hreads hjoin hA hB
  | false =>
      cases repeats' with
      | true =>
          obtain ⟨hdet, hjoin⟩ := hrepeat.2 rfl
          exact outcomes_of_alike_right hlawful hdet hreads hjoin hA hB
      | false => exact outcomes_of_rel hreads hA hB

end Deterministic

end Verax.Unnests
