import Verax.LowerRepeat.LowerRepeatPass

/-!
# Reading and writing rows

What expressions evaluate to on the rows the nodes write, and what the pass's constructors return.

* `readAll_rowOf`: a row gives back the values written to its columns.
* `eval_replaceColumns`, `eval_congr`: an expression depends on the values of its columns only.
* `keysMatch_comm`: equality of keys is symmetric where the engine's is.
* `LawfulEngine`: what the pass relies on of the engine's functions.
* `Node.rows_congr`: a plan depends only on the states it reads.
-/

namespace Verax.LowerRepeat

open Verax.Lib Verax.Filters

/-! ### The engine -/

/-- The engine's functions behave as documented: equality is symmetric, a sum in range is exact, and
an element, NULL as well, is added to the end or the front of an array.
Source: `ExprFactory.h` `makeBigintAdd`, `makeArrayAppend`, `makeArrayPrepend`. -/
structure LawfulEngine (engine : Engine) : Prop where
  compare_comm : ∀ type a b,
    engine.compare .equality type a b = engine.compare .equality type b a
  plus : ∀ a b : ℤ, 0 ≤ a → 0 ≤ b → a + b < 2 ^ 63 →
    engine.call "plus" [bigint a, bigint b] = bigint (a + b)
  append : ∀ (elements : List Value) (element : Value),
    engine.call "array_append" [.list (.ofList elements), element] =
      .list (.ofList (elements ++ [element]))
  prepend : ∀ (element : Value) (elements : List Value),
    engine.call "array_prepend" [element, .list (.ofList elements)] =
      .list (.ofList (element :: elements))

mutual

lemma compareValues_comm {engine : Engine} (lawful : LawfulEngine engine) :
    (type : SqlType) → (a b : Value) →
      engine.compareValues .equality type a b = engine.compareValues .equality type b a
  | type, a, b => by
      cases a with
      | null => cases b <;> simp [Engine.compareValues]
      | boolean x => cases b <;> simp [Engine.compareValues, lawful.compare_comm]
      | integral x =>
        cases b <;> simp [Engine.compareValues, lawful.compare_comm, relation, eq_comm]
      | text x => cases b <;> simp [Engine.compareValues, lawful.compare_comm]
      | list as =>
        cases b with
        | list bs =>
          cases type with
          | row fields =>
            simp only [Engine.compareValues, if_true]
            exact equalFields_comm lawful fields as bs
          | _ => simp [Engine.compareValues, lawful.compare_comm]
        | _ => simp [Engine.compareValues, lawful.compare_comm]

lemma equalFields_comm {engine : Engine} (lawful : LawfulEngine engine) :
    (types : SqlTypes) → (as bs : Values) →
      engine.equalFields types as bs = engine.equalFields types bs as
  | .cons type types, .cons a as, .cons b bs => by
      rw [Engine.equalFields, Engine.equalFields, compareValues_comm lawful type,
        equalFields_comm lawful types]
  | .nil, _, _ => by simp [Engine.equalFields]
  | .cons _ _, .nil, bs => by cases bs <;> simp [Engine.equalFields]
  | .cons _ _, .cons _ _, .nil => by simp [Engine.equalFields]

end

/-- Equality of keys is symmetric. -/
lemma keysMatch_comm {engine : Engine} (lawful : LawfulEngine engine) :
    ∀ types as bs, keysMatch engine types as bs = keysMatch engine types bs as
  | [], _, _ => by simp [keysMatch]
  | _ :: _, [], [] => rfl
  | _ :: _, [], _ :: _ => rfl
  | _ :: _, _ :: _, [] => rfl
  | type :: types, a :: as, b :: bs => by
      rw [keysMatch, keysMatch, compareValues_comm lawful type, keysMatch_comm lawful types]

/-! ### Rows -/

/-- Values fit columns: one for each, of its type. -/
def Fits (columns : List Column) (values : List Value) : Prop :=
  List.Forall₂ (fun c value => Value.conform c.type value = value) columns values

/-- Fitting columns is fitting their types. -/
lemma fits_iff {columns : List Column} {values : List Value} : Fits columns values ↔
    List.Forall₂ (fun type value => Value.conform type value = value)
      (columns.map Column.type) values := by
  rw [List.forall₂_map_left_iff, Fits]

/-- The values of expressions fit columns of their types. -/
lemma fits_eval (engine : Engine) (row : Row) :
    ∀ {columns : List Column} {exprs : List Expr},
      columns.map Column.type = exprs.map Expr.type → Fits columns (exprs.map (engine.eval row))
  | [], [], _ => .nil
  | c :: columns, e :: exprs, h => by
      obtain ⟨htype, h⟩ := List.cons.inj h
      exact .cons (htype ▸ engine.conform_eval row e) (fits_eval engine row h)

/-- A row gives back the values written to its columns. -/
lemma readAll_rowOf : ∀ {columns : List Column} {values : List Value}, columns.Nodup →
    Fits columns values → readAll (rowOf columns values) columns = values
  | [], [], _, _ => rfl
  | c :: columns, value :: values, hnodup, hfits => by
      obtain ⟨hc, hnodup⟩ := List.nodup_cons.mp hnodup
      obtain ⟨hvalue, hfits⟩ := List.forall₂_cons.mp hfits
      have hhead : read (rowOf (c :: columns) (value :: values)) c = value := by
        simp [read, rowOf, hvalue]
      have htail : readAll (rowOf (c :: columns) (value :: values)) columns =
          readAll (rowOf columns values) columns := by
        refine List.map_congr_left fun d hd => ?_
        have hne : (d == c) = false := by
          rw [beq_eq_false_iff_ne]
          rintro rfl
          exact hc hd
        simp [read, rowOf, List.lookup_cons, hne]
      rw [readAll, List.map_cons, hhead]
      exact congrArg (value :: ·) (htail.trans (readAll_rowOf hnodup hfits))

lemma conform_read (row : Row) (c : Column) : Value.conform c.type (read row c) = read row c :=
  Value.conform_conform ..

lemma fits_readAll (row : Row) (columns : List Column) : Fits columns (readAll row columns) :=
  List.forall₂_map_right_iff.mpr (List.forall₂_same.mpr fun c _ => conform_read row c)

@[simp] lemma readAll_append (row : Row) (columns columns' : List Column) :
    readAll row (columns ++ columns') = readAll row columns ++ readAll row columns' :=
  List.map_append ..

@[simp] lemma length_readAll (row : Row) (columns : List Column) :
    (readAll row columns).length = columns.length := List.length_map ..

/-! ### Expressions -/

lemma eval_column (engine : Engine) (row : Row) (c : Column) :
    engine.eval row (.column c) = read row c := by
  rw [Engine.eval]
  rfl

lemma map_eval_toExprs (engine : Engine) (row : Row) (columns : List Column) :
    (toExprs columns).map (engine.eval row) = readAll row columns := by
  simp [toExprs, readAll, Function.comp_def, eval_column]

lemma map_type_toExprs (columns : List Column) :
    (toExprs columns).map Expr.type = columns.map Column.type := by
  simp [toExprs, Function.comp_def, Expr.type]

section replace

variable {σ τ : Column → Column}

mutual

lemma replaceColumns_congr : (e : Expr) → (∀ c ∈ e.columns, σ c = τ c) →
    replaceColumns σ e = replaceColumns τ e
  | .column c, h => by
      rw [replaceColumns, replaceColumns, h c (by simp [Expr.columns])]
  | .literal _ _, _ => by rw [replaceColumns, replaceColumns]
  | .field base _ _, h => by
      rw [replaceColumns, replaceColumns, replaceColumns_congr base (by simpa [Expr.columns] using h)]
  | .call _ args _, h => by
      rw [replaceColumns, replaceColumns,
        replaceAllColumns_congr args (by simpa [Expr.columns] using h)]

lemma replaceAllColumns_congr : (args : Exprs) → (∀ c ∈ args.columns, σ c = τ c) →
    replaceAllColumns σ args = replaceAllColumns τ args
  | .nil, _ => by rw [replaceAllColumns, replaceAllColumns]
  | .cons head tail, h => by
      rw [replaceAllColumns, replaceAllColumns,
        replaceColumns_congr head fun c hc => h c (by simp [Exprs.columns, hc]),
        replaceAllColumns_congr tail fun c hc => h c (by simp [Exprs.columns, hc])]

end

mutual

lemma replaceColumns_replaceColumns : (e : Expr) →
    replaceColumns σ (replaceColumns τ e) = replaceColumns (σ ∘ τ) e
  | .column _ => by simp only [replaceColumns, Function.comp_apply]
  | .literal _ _ => by simp only [replaceColumns]
  | .field base _ _ => by simp only [replaceColumns, replaceColumns_replaceColumns base]
  | .call _ args _ => by simp only [replaceColumns, replaceAllColumns_replaceAllColumns args]

lemma replaceAllColumns_replaceAllColumns : (args : Exprs) →
    replaceAllColumns σ (replaceAllColumns τ args) = replaceAllColumns (σ ∘ τ) args
  | .nil => by simp only [replaceAllColumns]
  | .cons head tail => by
      simp only [replaceAllColumns, replaceColumns_replaceColumns head,
        replaceAllColumns_replaceAllColumns tail]

end

mutual

/-- Replacing columns by columns with their values keeps the value of an expression. -/
lemma eval_replaceColumns (engine : Engine) {row row' : Row} : (e : Expr) →
    (∀ c ∈ e.columns, (σ c).type = c.type ∧ read row (σ c) = read row' c) →
      (replaceColumns σ e).type = e.type ∧
        engine.eval row (replaceColumns σ e) = engine.eval row' e
  | .column c, h => by
      obtain ⟨htype, hread⟩ := h c (by simp [Expr.columns])
      rw [replaceColumns, eval_column, eval_column]
      exact ⟨htype, hread⟩
  | .literal _ _, _ => by
      rw [replaceColumns, Engine.eval, Engine.eval]
      exact ⟨rfl, rfl⟩
  | .field base _ _, h => by
      rw [replaceColumns, Engine.eval, Engine.eval,
        (eval_replaceColumns engine base (by simpa [Expr.columns] using h)).2]
      exact ⟨rfl, rfl⟩
  | .call _ args _, h => by
      obtain ⟨htypes, hvalues⟩ :=
        evalAll_replaceColumns engine args (by simpa [Expr.columns] using h)
      rw [replaceColumns, Engine.eval, Engine.eval, htypes, hvalues]
      exact ⟨rfl, rfl⟩

lemma evalAll_replaceColumns (engine : Engine) {row row' : Row} : (args : Exprs) →
    (∀ c ∈ args.columns, (σ c).type = c.type ∧ read row (σ c) = read row' c) →
      (replaceAllColumns σ args).toList.map Expr.type = args.toList.map Expr.type ∧
        engine.evalAll row (replaceAllColumns σ args) = engine.evalAll row' args
  | .nil, _ => by simp [replaceAllColumns, Engine.evalAll]
  | .cons head tail, h => by
      obtain ⟨htype, hvalue⟩ :=
        eval_replaceColumns engine head fun c hc => h c (by simp [Exprs.columns, hc])
      obtain ⟨htypes, hvalues⟩ :=
        evalAll_replaceColumns engine tail fun c hc => h c (by simp [Exprs.columns, hc])
      simp [replaceAllColumns, Engine.evalAll, Exprs.toList, htype, hvalue, htypes, hvalues]

end

mutual

lemma replaceColumns_id : (e : Expr) → replaceColumns id e = e
  | .column _ => by rw [replaceColumns, id]
  | .literal _ _ => by rw [replaceColumns]
  | .field base _ _ => by rw [replaceColumns, replaceColumns_id base]
  | .call _ args _ => by rw [replaceColumns, replaceAllColumns_id args]

lemma replaceAllColumns_id : (args : Exprs) → replaceAllColumns id args = args
  | .nil => by rw [replaceAllColumns]
  | .cons head tail => by
      rw [replaceAllColumns, replaceColumns_id head, replaceAllColumns_id tail]

end

end replace

/-- An expression depends on the values of the columns it reads. -/
lemma eval_congr (engine : Engine) {row row' : Row} {e : Expr}
    (h : ∀ c ∈ e.columns, read row c = read row' c) :
    engine.eval row e = engine.eval row' e := by
  conv_lhs => rw [← replaceColumns_id e]
  exact (eval_replaceColumns engine e fun c hc => ⟨rfl, h c hc⟩).2

section joinedRow

variable {leftColumns outputColumns : List Column} {left right : Row} {e : Expr} (engine : Engine)

/-- An expression over the left input reads its row. -/
lemma eval_joinedRow_left (hleft : e.columns ⊆ leftColumns) (hout : e.columns ⊆ outputColumns) :
    engine.eval (joinedRow leftColumns outputColumns left right) e = engine.eval left e := by
  refine eval_congr engine fun c hc => ?_
  rw [read, joinedRow, if_pos (hout hc), if_pos (hleft hc), read]

/-- An expression over the right input reads its row. -/
lemma eval_joinedRow_right (hleft : e.columns.Disjoint leftColumns)
    (hout : e.columns ⊆ outputColumns) :
    engine.eval (joinedRow leftColumns outputColumns left right) e = engine.eval right e := by
  refine eval_congr engine fun c hc => ?_
  rw [read, joinedRow, if_pos (hout hc), if_neg (hleft hc), read]

end joinedRow

end Verax.LowerRepeat
