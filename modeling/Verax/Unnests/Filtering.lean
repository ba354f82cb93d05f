import Verax.Unnests.PushdownAndPrunePass

/-!
# Filters over what a rewriting keeps

When rows stand for one another, and how filters move. A conjunct that reads what an operator passes
through may be asked below it or above it.

* `RowsMatch`: a rewritten row stands for a row.
* `filterStep_append`, `filterStep_below_one`, `filterStep_below`: conjuncts asked one after the
  other, and below an operator.
* `runs_maybeWrapFilter`, `matches_finish`: filters over matching nodes.
-/

namespace Verax.Unnests

open Lib Lib.PossibleBags

variable {V : Type} {engine : Engine V} {names : FunctionNames}

/-! ### Rows that stand for one another -/

/-- A row with the constants that replace columns. -/
def Constants.view (constants : Constants V) (row : Row V) : Row V :=
  fun c => (constants c).getD (row c)

/-- A rewritten row stands for a row, as far as some columns go. -/
def RowsMatch (columns : Finset Column) (constants : Constants V) (row row' : Row V) : Prop :=
  ∀ c ∈ columns, row c = constants.view row' c

variable {columns columns' : Finset Column} {constants : Constants V} {row row' : Row V}

lemma RowsMatch.mono (h : RowsMatch columns constants row row') (hsub : columns' ⊆ columns) :
    RowsMatch columns' constants row row' := fun c hc => h c (hsub hc)

lemma values_apply (e : Expr V) :
    engine.values row' (constants.apply e) = engine.values (constants.view row') e := by
  refine Engine.values_subst fun c _ => ?_
  simp only [Constants.view]
  cases constants c <;> rfl

/-- An expression over the columns has the values that it has after the rewriting. -/
lemma RowsMatch.values_apply (h : RowsMatch columns constants row row') {e : Expr V}
    (he : e.columns ⊆ columns) :
    engine.values row' (constants.apply e) = engine.values row e := by
  rw [Unnests.values_apply]
  exact Engine.values_congr fun c hc => (h c (he hc)).symm

lemma RowsMatch.valuesAll_apply (h : RowsMatch columns constants row row') :
    ∀ {es : List (Expr V)}, Expr.columnsAll es ⊆ columns →
      engine.valuesAll row' (es.map constants.apply) = engine.valuesAll row es
  | [], _ => rfl
  | e :: es, hes => by
      rw [List.map_cons, Engine.valuesAll, Engine.valuesAll,
        h.values_apply (Finset.union_subset_left hes),
        RowsMatch.valuesAll_apply h (Finset.union_subset_right hes)]

/-! ### Predicates -/

variable {predicates predicates' : List (Expr V)} {b : Bool}

lemma passes_congr (h : ∀ p, p ∈ predicates ↔ p ∈ predicates') :
    Passes engine predicates row b ↔ Passes engine predicates' row b := by
  cases b <;> simp only [Passes, h]

lemma exists_passes (hlawful : engine.Lawful names) (predicates : List (Expr V)) (row : Row V) :
    ∃ b, Passes engine predicates row b := by
  by_cases hall : ∀ p ∈ predicates, ∃ v ∈ engine.values row p, engine.holds v = true
  · exact ⟨true, hall⟩
  · push Not at hall
    obtain ⟨p, hp, hnone⟩ := hall
    obtain ⟨v, hv⟩ := hlawful.values_nonempty row p
    exact ⟨false, p, hp, v, hv, by simpa using hnone v hv⟩

/-- Conjuncts in two parts. -/
lemma passes_append (hlawful : engine.Lawful names) :
    Passes engine (predicates ++ predicates') row b ↔
      ∃ b₁ b₂, Passes engine predicates row b₁ ∧ Passes engine predicates' row b₂ ∧
        b = (b₁ && b₂) := by
  constructor
  · intro h
    cases b with
    | true =>
        exact ⟨true, true, fun p hp => h p (List.mem_append_left _ hp),
          fun p hp => h p (List.mem_append_right _ hp), rfl⟩
    | false =>
        obtain ⟨p, hp, hfails⟩ := h
        rcases List.mem_append.mp hp with hp | hp
        · obtain ⟨b₂, hb₂⟩ := exists_passes hlawful predicates' row
          exact ⟨false, b₂, ⟨p, hp, hfails⟩, hb₂, rfl⟩
        · obtain ⟨b₁, hb₁⟩ := exists_passes hlawful predicates row
          exact ⟨b₁, false, hb₁, ⟨p, hp, hfails⟩, (Bool.and_false b₁).symm⟩
  · rintro ⟨b₁, b₂, h₁, h₂, rfl⟩
    cases b₁ with
    | true =>
        cases b₂ with
        | true =>
            intro p hp
            rcases List.mem_append.mp hp with hp | hp
            · exact h₁ p hp
            · exact h₂ p hp
        | false =>
            obtain ⟨p, hp, hfails⟩ := h₂
            exact ⟨p, List.mem_append_right _ hp, hfails⟩
    | false =>
        obtain ⟨p, hp, hfails⟩ := h₁
        exact ⟨p, List.mem_append_left _ hp, hfails⟩

/-- Deterministic conjuncts say one thing. -/
lemma passes_unique (hlawful : engine.Lawful names)
    (hdet : ∀ p ∈ predicates, p.containsNonDeterministic names = false) {b' : Bool}
    (h : Passes engine predicates row b) (h' : Passes engine predicates row b') : b = b' := by
  have hcontra : Passes engine predicates row true → Passes engine predicates row false →
      False := by
    rintro htrue ⟨p, hp, v, hv, hfails⟩
    obtain ⟨w, hw, hholds⟩ := htrue p hp
    rw [hlawful.values_unique (hdet p hp) hw hv, hfails] at hholds
    cases hholds
  cases b <;> cases b'
  · rfl
  · exact (hcontra h' h).elim
  · exact (hcontra h h').elim
  · rfl

/-! ### Filters -/

lemma filterStep_iff {rows : Multiset (Row V)} : filterStep engine predicates row rows ↔
    ∃ b, Passes engine predicates row b ∧ rows = if b then {row} else 0 := by
  constructor
  · rintro (⟨h, rfl⟩ | ⟨h, rfl⟩)
    · exact ⟨true, h, rfl⟩
    · exact ⟨false, h, rfl⟩
  · rintro ⟨b, h, rfl⟩
    cases b with
    | true => exact .inl ⟨h, rfl⟩
    | false => exact .inr ⟨h, rfl⟩

lemma exists_filterStep (hlawful : engine.Lawful names) (predicates : List (Expr V)) (row : Row V) :
    ∃ rows, filterStep engine predicates row rows := by
  obtain ⟨b, hb⟩ := exists_passes hlawful predicates row
  exact ⟨_, filterStep_iff.mpr ⟨b, hb, rfl⟩⟩

lemma filterStep_congr (h : ∀ p, p ∈ predicates ↔ p ∈ predicates') {rows : Multiset (Row V)} :
    filterStep engine predicates row rows ↔ filterStep engine predicates' row rows := by
  simp only [filterStep_iff, passes_congr h]

lemma each_filterStep_nil {input rows : Multiset (Row V)} :
    Each (filterStep engine []) input rows ↔ rows = input := by
  have hstep : ∀ row : Row V, ∀ o, filterStep engine [] row o ↔ o = {row} := by
    intro row o
    simp [filterStep, Passes]
  rw [each_congr fun row _ => hstep row, each_eq, Multiset.bind_singleton, Multiset.map_id']

/-- Conjuncts asked one after the other. -/
lemma filterStep_append (hlawful : engine.Lawful names) {rows : Multiset (Row V)} :
    (∃ o, filterStep engine predicates row o ∧ Each (filterStep engine predicates') o rows) ↔
      filterStep engine (predicates ++ predicates') row rows := by
  simp only [filterStep_iff, passes_append hlawful]
  constructor
  · rintro ⟨o, ⟨b₁, h₁, rfl⟩, hrows⟩
    cases b₁ with
    | true =>
        obtain ⟨b₂, h₂, rfl⟩ := filterStep_iff.mp (each_singleton.mp hrows)
        exact ⟨b₂, ⟨true, b₂, h₁, h₂, rfl⟩, rfl⟩
    | false =>
        obtain ⟨b₂, h₂⟩ := exists_passes hlawful predicates' row
        exact ⟨false, ⟨false, b₂, h₁, h₂, rfl⟩, each_zero.mp hrows⟩
  · rintro ⟨b, ⟨b₁, b₂, h₁, h₂, rfl⟩, rfl⟩
    refine ⟨_, ⟨b₁, h₁, rfl⟩, ?_⟩
    cases b₁ with
    | true => exact each_singleton.mpr (filterStep_iff.mpr ⟨b₂, h₂, rfl⟩)
    | false => exact each_zero.mpr rfl

section Below

variable {step : Row V → Multiset (Row V) → Prop} {below above blocked : List (Expr V)}

/-- Conjuncts below an operator that makes one row, which they say the same of. -/
lemma filterStep_below_one (hlawful : engine.Lawful names) (hsome : ∃ o, step row o)
    (hone : ∀ o, step row o → ∃ out, o = {out} ∧
      ∀ b, Passes engine above out b ↔ Passes engine below row b)
    {rows : Multiset (Row V)} :
    (∃ o, filterStep engine below row o ∧
      Each (fun row r => ∃ o, step row o ∧ Each (filterStep engine blocked) o r) o rows) ↔
      ∃ o, step row o ∧ Each (filterStep engine (above ++ blocked)) o rows := by
  simp only [filterStep_iff]
  constructor
  · rintro ⟨o, ⟨b, hb, rfl⟩, hrows⟩
    cases b with
    | true =>
        obtain ⟨o, ho, hrows⟩ := each_singleton.mp hrows
        obtain ⟨out, rfl, hsame⟩ := hone o ho
        refine ⟨_, ho, each_singleton.mpr ((filterStep_append hlawful).mp ⟨{out}, ?_, hrows⟩)⟩
        exact filterStep_iff.mpr ⟨true, (hsame true).mpr hb, rfl⟩
    | false =>
        obtain ⟨o, ho⟩ := hsome
        obtain ⟨out, rfl, hsame⟩ := hone o ho
        have hnone : Each (filterStep engine blocked) 0 rows := each_zero.mpr (each_zero.mp hrows)
        refine ⟨_, ho, each_singleton.mpr ((filterStep_append hlawful).mp ⟨0, ?_, hnone⟩)⟩
        exact filterStep_iff.mpr ⟨false, (hsame false).mpr hb, rfl⟩
  · rintro ⟨o, ho, hrows⟩
    obtain ⟨out, rfl, hsame⟩ := hone o ho
    obtain ⟨o, hfirst, hrows⟩ := (filterStep_append hlawful).mpr (each_singleton.mp hrows)
    obtain ⟨b, hb, rfl⟩ := filterStep_iff.mp hfirst
    refine ⟨_, ⟨b, (hsame b).mp hb, rfl⟩, ?_⟩
    cases b with
    | true => exact each_singleton.mpr ⟨_, ho, hrows⟩
    | false => exact each_zero.mpr (each_zero.mp hrows)

/-- Deterministic conjuncts below an operator that passes on what they read. -/
lemma filterStep_below (hlawful : engine.Lawful names) (hsome : ∃ o, step row o)
    (hdet : ∀ p ∈ below, p.containsNonDeterministic names = false)
    (hsame : ∀ o, step row o → ∀ out ∈ o, ∀ b,
      Passes engine below out b ↔ Passes engine below row b)
    {rows : Multiset (Row V)} :
    (∃ o, filterStep engine below row o ∧
      Each (fun row r => ∃ o, step row o ∧ Each (filterStep engine blocked) o r) o rows) ↔
      ∃ o, step row o ∧ Each (filterStep engine (below ++ blocked)) o rows := by
  obtain ⟨b, hb⟩ := exists_passes hlawful below row
  have hbelow : ∀ o, filterStep engine below row o ↔ o = if b then {row} else 0 := by
    intro o
    rw [filterStep_iff]
    exact ⟨fun ⟨b', hb', ho⟩ => by rw [ho, passes_unique hlawful hdet hb' hb],
      fun ho => ⟨b, hb, ho⟩⟩
  have habove : ∀ o, step row o → (Each (filterStep engine (below ++ blocked)) o rows ↔
      if b then Each (filterStep engine blocked) o rows else rows = 0) := by
    intro o ho
    have hout : ∀ out ∈ o, ∀ r, filterStep engine (below ++ blocked) out r ↔
        if b then filterStep engine blocked out r else r = 0 := by
      intro out hout r
      rw [← filterStep_append hlawful]
      have hfirst : ∀ o', filterStep engine below out o' ↔ o' = if b then {out} else 0 := by
        intro o'
        rw [filterStep_iff]
        exact ⟨fun ⟨b', hb', ho'⟩ => by
            rw [ho', passes_unique hlawful hdet ((hsame o ho out hout b').mp hb') hb],
          fun ho' => ⟨b, (hsame o ho out hout b).mpr hb, ho'⟩⟩
      cases b <;> simp [hfirst]
    rw [each_congr hout]
    cases b with
    | true => rfl
    | false =>
        simp only [Bool.false_eq_true, if_false]
        rw [each_eq (f := fun _ => 0)]
        simp
  cases b with
  | true =>
      simp only [hbelow, if_true, exists_eq_left, each_singleton]
      exact exists_congr fun o => and_congr_right fun ho => (by simpa using (habove o ho).symm)
  | false =>
      simp only [hbelow, Bool.false_eq_true, if_false, exists_eq_left, each_zero]
      constructor
      · rintro rfl
        obtain ⟨o, ho⟩ := hsome
        exact ⟨o, ho, by simpa using (habove o ho)⟩
      · rintro ⟨o, ho, hrows⟩
        simpa using (habove o ho).mp hrows

end Below

/-! ### Filters over matching nodes -/

lemma runs_maybeWrapFilter {leafRows : Multiset (Row V)} {body : Tree V}
    {conjuncts : List (Expr V)} {rows : Multiset (Row V)} :
    (maybeWrapFilter body conjuncts).Runs engine leafRows rows ↔
      ∃ input, body.Runs engine leafRows input ∧ Each (filterStep engine conjuncts) input rows := by
  unfold maybeWrapFilter
  cases conjuncts with
  | nil => simp [each_filterStep_nil]
  | cons p conjuncts => rfl

/-- Conjuncts over the columns say the same of rows that match. -/
lemma matches_filterStep (h : RowsMatch columns constants row row')
    (hreads : Expr.columnsAll predicates ⊆ columns) :
    Matches false (RowsMatch columns constants) (filterStep engine predicates row)
      (filterStep engine (predicates.map constants.apply) row') := by
  have hvalues : ∀ p ∈ predicates,
      engine.values row' (constants.apply p) = engine.values row p := fun p hp =>
    h.values_apply ((Expr.columns_subset_columnsAll hp).trans hreads)
  have hpasses : ∀ b, Passes engine predicates row b ↔
      Passes engine (predicates.map constants.apply) row' b := by
    intro b
    cases b with
    | true =>
        simp only [Passes, List.forall_mem_map]
        exact forall₂_congr fun p hp => by rw [hvalues p hp]
    | false =>
        simp only [Passes, List.mem_map, exists_exists_and_eq_and]
        exact exists_congr fun p => and_congr_right fun hp => by rw [hvalues p hp]
  have halike : ∀ b : Bool, Alike false (RowsMatch columns constants)
      (if b then {row} else 0) (if b then {row'} else 0) := by
    intro b
    cases b with
    | true => exact Multiset.Rel.cons h Multiset.Rel.zero
    | false => exact alike_zero
  constructor
  · intro rows hrows
    obtain ⟨b, hb, rfl⟩ := filterStep_iff.mp hrows
    exact ⟨_, filterStep_iff.mpr ⟨b, (hpasses b).mp hb, rfl⟩, halike b⟩
  · intro rows hrows
    obtain ⟨b, hb, rfl⟩ := filterStep_iff.mp hrows
    exact ⟨_, filterStep_iff.mpr ⟨b, (hpasses b).mpr hb, rfl⟩, halike b⟩

/-- Filters over nodes that match one for one, or no filter. -/
lemma matches_finish {repeats : Bool} {P : Multiset (Row V) → Prop}
    {leafRows : Multiset (Row V)} {simplified : SimplifiedNode V} {blocked : List (Expr V)}
    (h : Matches repeats (RowsMatch columns simplified.substitutions) P
      (simplified.node.Runs engine leafRows))
    (hreads : Expr.columnsAll blocked ⊆ columns) (hexact : repeats = false ∨ blocked = []) :
    Matches repeats (RowsMatch columns simplified.substitutions)
      (fun rows => ∃ input, P input ∧ Each (filterStep engine blocked) input rows)
      ((finishSimplifiedNode simplified blocked).node.Runs engine leafRows) := by
  rcases hexact with rfl | rfl
  · refine Matches.congr (Matches.each h fun row row' hmatch => matches_filterStep hmatch hreads)
      (fun _ => Iff.rfl) fun rows => ?_
    exact runs_maybeWrapFilter
  · exact h.congr (fun rows => by simp [each_filterStep_nil]) fun _ => Iff.rfl

end Verax.Unnests
