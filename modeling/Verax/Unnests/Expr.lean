import Mathlib.Data.Finset.Union
import Mathlib.Data.Set.Basic
import Verax.Lib.ThreeValued

/-!
# Expressions

The expressions of a plan and the values they may have on a row. A call of a nondeterministic
function may have more than one value. The functions the rewriting builds calls of are cardinality,
`<=` and OR; what the query engine computes for the others is a parameter, `Engine`.

* `Engine.values`: the values of an expression.
* `Engine.Lawful`: what the rewriting relies on of the query engine.
* `values_subst`: the values of an expression whose columns are replaced.
-/

namespace Verax.Unnests

open Lib

/-! ### Expressions -/

/-- Source: `QueryGraph.h` `Column`. -/
structure Column where
  id : ℕ
  deriving DecidableEq

/-- Source: `QueryGraph.h` `Expr`. -/
inductive Expr (V : Type) where
  | column (column : Column)
  | literal (value : V)
  | call (name : String) (args : List (Expr V))

/-- The functions that the rewriting asks for by name, and those marked nondeterministic.
Source: `Builder.h` `FunctionNames`, `FunctionSet::kNonDeterministic`. -/
structure FunctionNames where
  cardinality : Option String
  lte : Option String
  nonDeterministic : String → Bool

namespace Expr

variable {V : Type}

mutual

/-- The columns an expression reads. -/
def columns : Expr V → Finset Column
  | .column c => {c}
  | .literal _ => ∅
  | .call _ args => columnsAll args

/-- The columns some expressions read. -/
def columnsAll : List (Expr V) → Finset Column
  | [] => ∅
  | e :: es => e.columns ∪ columnsAll es

end

mutual

/-- Source: `QueryGraph.h` `Expr::containsNonDeterministic`. -/
def containsNonDeterministic (names : FunctionNames) : Expr V → Bool
  | .column _ => false
  | .literal _ => false
  | .call name args => names.nonDeterministic name || anyNonDeterministic names args

/-- Some expression is nondeterministic. -/
def anyNonDeterministic (names : FunctionNames) : List (Expr V) → Bool
  | [] => false
  | e :: es => e.containsNonDeterministic names || anyNonDeterministic names es

end

mutual

/-- An expression with its columns replaced. -/
def subst (f : Column → Expr V) : Expr V → Expr V
  | .column c => f c
  | .literal value => .literal value
  | .call name args => .call name (substAll f args)

/-- Expressions with their columns replaced. -/
def substAll (f : Column → Expr V) : List (Expr V) → List (Expr V)
  | [] => []
  | e :: es => e.subst f :: substAll f es

end

lemma substAll_eq_map (f : Column → Expr V) : ∀ es : List (Expr V), substAll f es = es.map (subst f)
  | [] => rfl
  | e :: es => by rw [substAll, List.map_cons, substAll_eq_map f es]

lemma mem_columnsAll {c : Column} : ∀ {es : List (Expr V)},
    c ∈ columnsAll es ↔ ∃ e ∈ es, c ∈ e.columns
  | [] => by simp [columnsAll]
  | e :: es => by simp [columnsAll, mem_columnsAll]

lemma columns_subset_columnsAll {e : Expr V} {es : List (Expr V)} (h : e ∈ es) :
    e.columns ⊆ columnsAll es := fun _ hc => mem_columnsAll.mpr ⟨e, h, hc⟩

lemma anyNonDeterministic_eq_false {names : FunctionNames} : ∀ {es : List (Expr V)},
    anyNonDeterministic names es = false ↔ ∀ e ∈ es, e.containsNonDeterministic names = false
  | [] => by simp [anyNonDeterministic]
  | e :: es => by simp [anyNonDeterministic, anyNonDeterministic_eq_false]

mutual

/-- What an expression with its columns replaced reads. -/
lemma exists_of_mem_columns_subst {f : Column → Expr V} {c : Column} : ∀ {e : Expr V},
    c ∈ (e.subst f).columns → ∃ c' ∈ e.columns, c ∈ (f c').columns
  | .column c', h => ⟨c', Finset.mem_singleton_self c', h⟩
  | .literal _, h => by simp [subst, columns] at h
  | .call _ args, h => by
      obtain h : c ∈ columnsAll (substAll f args) := h
      exact exists_of_mem_columns_substAll h

lemma exists_of_mem_columns_substAll {f : Column → Expr V} {c : Column} : ∀ {es : List (Expr V)},
    c ∈ columnsAll (substAll f es) → ∃ c' ∈ columnsAll es, c ∈ (f c').columns
  | [], h => by simp [substAll, columnsAll] at h
  | e :: es, h => by
      rw [substAll, columnsAll, Finset.mem_union] at h
      rcases h with h | h
      · obtain ⟨c', hc', hmem⟩ := exists_of_mem_columns_subst h
        exact ⟨c', Finset.mem_union_left _ hc', hmem⟩
      · obtain ⟨c', hc', hmem⟩ := exists_of_mem_columns_substAll h
        exact ⟨c', Finset.mem_union_right _ hc', hmem⟩

end

end Expr

/-! ### Values -/

/-- What the optimizer knows of values. A collection has a tuple for each element: one value for an
array, a key and a value for a map; NULL has none.
Source: `velox/type/Variant.h`. -/
structure Variants (V : Type) where
  null : V
  boolean : Bool → V
  integer : ℕ → V
  truth : V → Truth
  collection : V → Option (List (List V))

/-- A value for each column. -/
abbrev Row (V : Type) := Column → V

/-- What the query engine computes: the values a call may have, and the ordinality of a row that
comes from no element. -/
structure Engine (V : Type) extends Variants V where
  call : String → List V → Set V
  emptyOrdinality : V

namespace Engine

variable {V : Type} (engine : Engine V)

/-- A condition with this value holds. -/
def holds (value : V) : Bool := (engine.truth value).holds

mutual

/-- The values an expression may have on a row. -/
def values (row : Row V) : Expr V → Set V
  | .column c => {row c}
  | .literal value => {value}
  | .call name args => {v | ∃ vs ∈ valuesAll row args, v ∈ engine.call name vs}

/-- The values some expressions may have on a row. -/
def valuesAll (row : Row V) : List (Expr V) → Set (List V)
  | [] => {[]}
  | e :: es => {vs | ∃ v ∈ values row e, ∃ vs' ∈ valuesAll row es, vs = v :: vs'}

end

/-- The length of a collection, NULL of NULL. -/
def cardinalityOf (value : V) : V :=
  match engine.collection value with
  | some elements => engine.integer elements.length
  | none => engine.null

/-- What the rewriting relies on of the query engine: every call has a value, and but one if it is
deterministic; Booleans, and the functions that the rewriting builds calls of. -/
structure Lawful (names : FunctionNames) : Prop where
  nonempty : ∀ name vs, (engine.call name vs).Nonempty
  deterministic : ∀ name vs v w, names.nonDeterministic name = false →
    v ∈ engine.call name vs → w ∈ engine.call name vs → v = w
  holds_null : engine.holds engine.null = false
  holds_boolean : ∀ b, engine.holds (engine.boolean b) = b
  cardinality : ∀ name v, names.cardinality = some name →
    engine.call name [v] = {engine.cardinalityOf v}
  lte : ∀ name m n, names.lte = some name →
    engine.call name [engine.integer m, engine.integer n] = {engine.boolean (decide (m ≤ n))}
  lte_null : ∀ name m, names.lte = some name →
    engine.call name [engine.integer m, engine.null] = {engine.null}
  or : ∀ v w u, u ∈ engine.call "__or" [v, w] →
    engine.holds u = (engine.holds v || engine.holds w)

variable {engine} {names : FunctionNames}

/-! ### What the values of an expression depend on -/

lemma mem_valuesAll {row : Row V} : ∀ {es : List (Expr V)} {vs : List V},
    vs ∈ engine.valuesAll row es ↔ List.Forall₂ (fun e v => v ∈ engine.values row e) es vs
  | [], vs => by simp [valuesAll]
  | e :: es, vs => by
      rw [valuesAll, Set.mem_ofPred_eq, List.forall₂_cons_left_iff]
      simp only [mem_valuesAll]
      constructor
      · rintro ⟨v, hv, vs', hvs', rfl⟩
        exact ⟨v, vs', hv, hvs', rfl⟩
      · rintro ⟨v, vs', hv, hvs', rfl⟩
        exact ⟨v, hv, vs', hvs', rfl⟩

mutual

/-- An expression depends on the columns it reads. -/
lemma values_congr {row row' : Row V} : ∀ {e : Expr V}, (∀ c ∈ e.columns, row c = row' c) →
    engine.values row e = engine.values row' e
  | .column c, h => by rw [values, values, h c (Finset.mem_singleton_self c)]
  | .literal _, _ => rfl
  | .call name args, h => by
      have hargs : engine.valuesAll row args = engine.valuesAll row' args := valuesAll_congr h
      rw [values, values, hargs]

lemma valuesAll_congr {row row' : Row V} : ∀ {es : List (Expr V)},
    (∀ c ∈ Expr.columnsAll es, row c = row' c) →
    engine.valuesAll row es = engine.valuesAll row' es
  | [], _ => rfl
  | e :: es, h => by
      rw [valuesAll, valuesAll,
        values_congr fun c hc => h c (Finset.mem_union_left _ hc),
        valuesAll_congr fun c hc => h c (Finset.mem_union_right _ hc)]

end

mutual

/-- An expression whose columns are replaced has the values it has on the row of the values of the
replacements. -/
lemma values_subst {f : Column → Expr V} {row row' : Row V} : ∀ {e : Expr V},
    (∀ c ∈ e.columns, engine.values row (f c) = {row' c}) →
    engine.values row (e.subst f) = engine.values row' e
  | .column c, h => h c (Finset.mem_singleton_self c)
  | .literal _, _ => rfl
  | .call name args, h => by
      have hargs : engine.valuesAll row (Expr.substAll f args) = engine.valuesAll row' args :=
        valuesAll_substAll h
      rw [Expr.subst, values, values, hargs]

lemma valuesAll_substAll {f : Column → Expr V} {row row' : Row V} : ∀ {es : List (Expr V)},
    (∀ c ∈ Expr.columnsAll es, engine.values row (f c) = {row' c}) →
    engine.valuesAll row (Expr.substAll f es) = engine.valuesAll row' es
  | [], _ => rfl
  | e :: es, h => by
      rw [Expr.substAll, valuesAll, valuesAll,
        values_subst fun c hc => h c (Finset.mem_union_left _ hc),
        valuesAll_substAll fun c hc => h c (Finset.mem_union_right _ hc)]

end

namespace Lawful

mutual

/-- Every expression has a value. -/
lemma values_nonempty (h : engine.Lawful names) (row : Row V) : ∀ e : Expr V,
    (engine.values row e).Nonempty
  | .column c => ⟨row c, rfl⟩
  | .literal value => ⟨value, rfl⟩
  | .call name args => by
      obtain ⟨vs, hvs⟩ := valuesAll_nonempty h row args
      obtain ⟨v, hv⟩ := h.nonempty name vs
      exact ⟨v, vs, hvs, hv⟩

lemma valuesAll_nonempty (h : engine.Lawful names) (row : Row V) : ∀ es : List (Expr V),
    (engine.valuesAll row es).Nonempty
  | [] => ⟨[], rfl⟩
  | e :: es => by
      obtain ⟨v, hv⟩ := values_nonempty h row e
      obtain ⟨vs, hvs⟩ := valuesAll_nonempty h row es
      exact ⟨v :: vs, v, hv, vs, hvs, rfl⟩

end

mutual

/-- A deterministic expression has one value. -/
lemma values_unique (h : engine.Lawful names) {row : Row V} : ∀ {e : Expr V} {v w : V},
    e.containsNonDeterministic names = false → v ∈ engine.values row e →
    w ∈ engine.values row e → v = w
  | .column _, _, _, _, hv, hw => hv.trans hw.symm
  | .literal _, _, _, _, hv, hw => hv.trans hw.symm
  | .call name args, v, w, hdet, hv, hw => by
      rw [Expr.containsNonDeterministic, Bool.or_eq_false_iff] at hdet
      obtain ⟨vs, hvs, hv⟩ := hv
      obtain ⟨ws, hws, hw⟩ := hw
      rw [valuesAll_unique h hdet.2 hvs hws] at hv
      exact h.deterministic name ws v w hdet.1 hv hw

lemma valuesAll_unique (h : engine.Lawful names) {row : Row V} :
    ∀ {es : List (Expr V)} {vs ws : List V}, Expr.anyNonDeterministic names es = false →
      vs ∈ engine.valuesAll row es → ws ∈ engine.valuesAll row es → vs = ws
  | [], _, _, _, hvs, hws => hvs.trans hws.symm
  | e :: es, _, _, hdet, hvs, hws => by
      rw [Expr.anyNonDeterministic, Bool.or_eq_false_iff] at hdet
      obtain ⟨v, hv, vs, hvs, rfl⟩ := hvs
      obtain ⟨w, hw, ws, hws, rfl⟩ := hws
      rw [values_unique h hdet.1 hv hw, valuesAll_unique h hdet.2 hvs hws]

end

end Lawful

end Engine

end Verax.Unnests
