import Verax.Plan.QueryGraph

/-!
# Expressions that are NULL on NULL

The values that expressions may have on a row. What the query engine computes for a call is a
parameter, `Engine`.

* `isKnownNonNull`: an expression is known not to be NULL.
* `Engine.evaluate`: what an expression may come to on a row; a lambda comes to a function.
* `isKnownNonNull_sound`: an expression known not to be NULL is not.
* `isNull_of_mem_columns`: an expression without non-default null behavior is NULL where a column it
  reads is.
-/

namespace Verax.NonNull

open QueryGraph

/-! ### Known not to be NULL -/

variable {V : Type}

mutual

/-- Source: `ExprSimplifier.cpp` `ExprSimplifier::isKnownNonNull`. -/
def isKnownNonNull (nonNullColumns : Finset Column) : Expr V → Bool
  | .column c => c ∈ nonNullColumns
  | .literal value => value.isSome
  | .call name _ args => name = kCoalesce && anyKnownNonNull nonNullColumns args
  | .field _ _ => false
  | .lambda _ _ => false

/-- Some expression is known not to be NULL. -/
def anyKnownNonNull (nonNullColumns : Finset Column) : List (Expr V) → Bool
  | [] => false
  | e :: es => isKnownNonNull nonNullColumns e || anyKnownNonNull nonNullColumns es

end

/-! ### Values -/

/-- What an argument comes to: a value, or the function that a lambda makes, with the values of the
columns its body reads of the row. -/
inductive Argument (V : Type) where
  | value (value : Option V)
  | function (captured : Set (Option V)) (apply : List (Option V) → Set (Option V))

/-- An argument is NULL: a function is if it has captured NULL. -/
def Argument.IsNull : Argument V → Prop
  | .value v => v = none
  | .function captured _ => none ∈ captured

/-- The value of an argument that is not NULL. -/
def Argument.datum : Argument V → Option V
  | .value v => v
  | .function _ _ => none

/-- What the query engine computes: what a call may come to, and the field of a value. -/
structure Engine (V : Type) where
  call : String → List (Argument V) → Set (Option V)
  field : String → V → Option V

namespace Engine

variable (engine : Engine V)

mutual

/-- What an expression may come to on a row. -/
def evaluate (row : Row V) : Expr V → Set (Argument V)
  | .column c => {.value (row c)}
  | .literal value => {.value value}
  | .call name _ args => {a | ∃ v vs, vs ∈ evaluateAll row args ∧ v ∈ engine.call name vs ∧
      a = .value v}
  | .field base name => {a | ∃ v, .value v ∈ evaluate row base ∧
      a = .value (v.bind (engine.field name))}
  | .lambda args body => {.function (row '' (body.columns \ args.toFinset : Finset Column))
      fun vs => {v | .value v ∈ evaluate (row.extend args vs) body}}

/-- What some expressions may come to on a row. -/
def evaluateAll (row : Row V) : List (Expr V) → Set (List (Argument V))
  | [] => {[]}
  | e :: es => {vs | ∃ v ∈ evaluate row e, ∃ vs' ∈ evaluateAll row es, vs = v :: vs'}

end

/-- The values an expression may have on a row. -/
def values (row : Row V) (e : Expr V) : Set (Option V) := {v | .value v ∈ engine.evaluate row e}

/-- What the optimizer relies on of the query engine: a function with default null behavior is NULL
if an argument is, and COALESCE is its first argument that is not NULL.
Source: `FunctionRegistry.h` `FunctionSet::kNonDefaultNullBehavior`, the comments on default-null
functions in `DecorrelatePass.cpp`. -/
structure Lawful (registry : Registry) : Prop where
  defaultNull : ∀ name args v, (ownFunctions registry name).nonDefaultNullBehavior = false →
    (∃ a ∈ args, a.IsNull) → v ∈ engine.call name args → v = none
  coalesce : ∀ args v, v ∈ engine.call kCoalesce args → v = args.findSome? Argument.datum

variable {engine} {registry : Registry}

lemma mem_evaluateAll {row : Row V} : ∀ {es : List (Expr V)} {vs : List (Argument V)},
    vs ∈ engine.evaluateAll row es ↔ List.Forall₂ (fun e v => v ∈ engine.evaluate row e) es vs
  | [], vs => by simp [evaluateAll]
  | e :: es, vs => by
      rw [evaluateAll, Set.mem_ofPred_eq, List.forall₂_cons_left_iff]
      simp only [mem_evaluateAll]
      constructor
      · rintro ⟨v, hv, vs', hvs', rfl⟩
        exact ⟨v, vs', hv, hvs', rfl⟩
      · rintro ⟨v, vs', hv, hvs', rfl⟩
        exact ⟨v, hv, vs', hvs', rfl⟩

/-! ### What is known of the values -/

mutual

/-- **An expression known not to be NULL is not**, on a row without NULL in the columns that are
known to have none. -/
theorem isKnownNonNull_sound (h : engine.Lawful registry) {nonNull : Finset Column} {row : Row V}
    (hrow : ∀ c ∈ nonNull, row c ≠ none) : ∀ {e : Expr V} {a : Argument V},
    isKnownNonNull nonNull e = true → a ∈ engine.evaluate row e → a.datum ≠ none
  | .column c, a, hknown, ha => by
      rw [evaluate, Set.mem_singleton_iff] at ha
      rw [ha]
      exact hrow c (of_decide_eq_true hknown)
  | .literal value, a, hknown, ha => by
      rw [evaluate, Set.mem_singleton_iff] at ha
      rw [ha]
      exact Option.isSome_iff_ne_none.mp hknown
  | .call name functions args, a, hknown, ha => by
      rw [isKnownNonNull, Bool.and_eq_true, decide_eq_true_eq] at hknown
      obtain ⟨v, vs, hvs, hv, rfl⟩ := ha
      rw [hknown.1] at hv
      obtain ⟨b, hb, hsome⟩ := anyKnownNonNull_sound h hrow hknown.2 hvs
      rw [h.coalesce vs v hv]
      intro hnone
      exact hsome (List.findSome?_eq_none_iff.mp hnone b hb)

theorem anyKnownNonNull_sound (h : engine.Lawful registry) {nonNull : Finset Column} {row : Row V}
    (hrow : ∀ c ∈ nonNull, row c ≠ none) : ∀ {es : List (Expr V)} {vs : List (Argument V)},
    anyKnownNonNull nonNull es = true → vs ∈ engine.evaluateAll row es →
      ∃ a ∈ vs, a.datum ≠ none
  | e :: es, vs, hknown, hvs => by
      obtain ⟨a, ha, vs, hvs, rfl⟩ := hvs
      rw [anyKnownNonNull, Bool.or_eq_true] at hknown
      rcases hknown with hknown | hknown
      · exact ⟨a, List.mem_cons_self, isKnownNonNull_sound h hrow hknown ha⟩
      · obtain ⟨b, hb, hsome⟩ := anyKnownNonNull_sound h hrow hknown hvs
        exact ⟨b, List.mem_cons_of_mem a hb, hsome⟩

end

mutual

/-- **An expression without non-default null behavior is NULL** on a row with NULL in a column that
it reads. -/
theorem isNull_of_mem_columns (h : engine.Lawful registry) {row : Row V} {c : Column}
    (hnull : row c = none) : ∀ {e : Expr V} {a : Argument V}, e.WellFormed registry →
      e.containsNonDefaultNullBehavior = false → c ∈ e.columns → a ∈ engine.evaluate row e →
        a.IsNull
  | .column c', a, _, _, hc, ha => by
      rw [Expr.columns, Finset.mem_singleton] at hc
      rw [evaluate, Set.mem_singleton_iff, ← hc] at ha
      rw [ha]
      exact hnull
  | .call name functions args, a, hwell, hstrict, hc, ha => by
      obtain ⟨v, vs, hvs, hv, rfl⟩ := ha
      obtain ⟨hown, hargs⟩ := hwell.subset
      have hfalse : ∀ {s : FunctionSet}, s.Subset functions → s.nonDefaultNullBehavior = false :=
        fun hs => Bool.eq_false_iff.mpr fun hset => Bool.eq_false_iff.mp hstrict (hs.2 hset)
      exact h.defaultNull name vs v (hfalse hown)
        (exists_isNull h hnull hwell.2 (fun e he => hfalse (hargs e he)) hc hvs) hv
  | .field base name, a, hwell, hstrict, hc, ha => by
      obtain ⟨v, hv, rfl⟩ := ha
      have hbase : v = none := isNull_of_mem_columns h hnull (e := base) hwell hstrict hc hv
      rw [hbase]
      rfl
  | .lambda args body, a, _, _, hc, ha => by
      rw [evaluate, Set.mem_singleton_iff] at ha
      rw [ha]
      exact ⟨c, hc, hnull⟩

theorem exists_isNull (h : engine.Lawful registry) {row : Row V} {c : Column}
    (hnull : row c = none) : ∀ {es : List (Expr V)} {vs : List (Argument V)},
    Expr.AllWellFormed registry es → (∀ e ∈ es, e.containsNonDefaultNullBehavior = false) →
      c ∈ Expr.columnsAll es → vs ∈ engine.evaluateAll row es → ∃ a ∈ vs, a.IsNull
  | e :: es, vs, hwell, hstrict, hc, hvs => by
      obtain ⟨a, ha, vs, hvs, rfl⟩ := hvs
      rw [Expr.columnsAll, Finset.mem_union] at hc
      rcases hc with hc | hc
      · exact ⟨a, List.mem_cons_self,
          isNull_of_mem_columns h hnull hwell.1 (hstrict e List.mem_cons_self) hc ha⟩
      · obtain ⟨b, hb, hisNull⟩ := exists_isNull h hnull hwell.2
          (fun e' he' => hstrict e' (List.mem_cons_of_mem e he')) hc hvs
        exact ⟨b, List.mem_cons_of_mem a hb, hisNull⟩

end

end Engine

end Verax.NonNull
