import Verax.Ranking.Conjuncts
import Verax.Ranking.Windows

/-!
# What a rewriting must keep

A rewritten node stands for a node under conjuncts: the rows it delivers when the plan runs are rows
that the node, filtered by the conjuncts, may return, as far as their columns are read above. Under a
limit, a window may leave out rows that have as many others above them as the limit keeps.

* `Sound`: the relation of a node, what is known above it and its rewritten form.
* `Node.WellFormed`, `Context.Fits`: nodes and conjuncts as the pass meets them.
-/

namespace Verax.Ranking

open Lib Lib.Rankings Filters

variable {catalog : Catalog}

/-! ### Replacements -/

namespace Substitutions

/-- Only columns of a scope are replaced, and by columns of the scope. -/
structure Scoped (σ : Substitutions) (scope : Set Column) : Prop where
  outside : ∀ c ∉ scope, σ.replacement c = .column c
  inside : ∀ c ∈ scope, ∀ d, σ.replacement c = .column d → d ∈ scope

variable {σ τ : Substitutions} {scope : Set Column}

lemma scoped_none : none.Scoped scope where
  outside _ _ := rfl
  inside _ hc _ h := Replacement.column.inj h ▸ hc

lemma Scoped.union (h : σ.Scoped scope) (more : Set Column) : σ.Scoped (scope ∪ more) where
  outside c hc := h.outside c fun hmem => hc (.inl hmem)
  inside c hc d hd := by
    by_cases hmem : c ∈ scope
    · exact .inl (h.inside c hmem d hd)
    · rw [h.outside c hmem] at hd
      exact Replacement.column.inj hd ▸ hc

lemma Scoped.add (h : σ.Scoped scope) {column : Column} (hcolumn : column ∈ scope) (value : Value) :
    (σ.add column value).Scoped scope where
  outside c hc := by
    have hne : σ.replacement c ≠ .column column := by
      rw [h.outside c hc]
      exact fun heq => hc (Replacement.column.inj heq ▸ hcolumn)
    exact (if_neg hne).trans (h.outside c hc)
  inside c hc d hd := by
    simp only [Substitutions.add] at hd
    split_ifs at hd
    exact h.inside c hc d hd

/-- Replacing a second time is replacing once. -/
def Extends (τ σ : Substitutions) : Prop :=
  ∀ c, τ.apply (σ.replacement c).expr = (τ.replacement c).expr

lemma extends_self (σ : Substitutions) : σ.Extends σ := by
  intro c
  cases h : σ.replacement c with
  | column d =>
    rw [Replacement.expr, apply, σ.resolved c d h]
    rfl
  | literal value type => rfl

lemma extends_add (σ : Substitutions) (column : Column) (value : Value) :
    (σ.add column value).Extends σ := by
  intro c
  cases h : σ.replacement c with
  | column d => simp only [Replacement.expr, apply, Substitutions.add, σ.resolved c d h, h]
  | literal value' type => simp [Replacement.expr, apply, Substitutions.add, h]

mutual

lemma apply_apply (h : τ.Extends σ) : (e : Expr) → τ.apply (σ.apply e) = τ.apply e
  | .column c => by rw [apply, apply, h c]
  | .literal _ _ => rfl
  | .field base _ _ => by rw [apply, apply, apply, apply_apply h base]
  | .call _ args _ => by rw [apply, apply, apply, applyAll_applyAll h args]

lemma applyAll_applyAll (h : τ.Extends σ) :
    (args : Exprs) → τ.applyAll (σ.applyAll args) = τ.applyAll args
  | .nil => rfl
  | .cons head tail => by
    rw [applyAll, applyAll, applyAll, apply_apply h head, applyAll_applyAll h tail]

end

lemma map_apply_apply (h : τ.Extends σ) (es : List Expr) :
    (es.map σ.apply).map τ.apply = es.map τ.apply := by
  rw [List.map_map]
  exact List.map_congr_left fun e _ => apply_apply h e

end Substitutions

/-! ### Nodes and conjuncts -/

/-- The order keys of a window. -/
def Node.windowOrderKeys : Node → List SortKey
  | .window _ _ _ orderKeys => orderKeys
  | _ => []

/-- The parameters of nodes are sound: keys and conjuncts read columns of the input, and a ranking
function writes a new BIGINT column.
Source: the checks of `Node.cpp`. -/
def Node.WellFormed (catalog : Catalog) : Node → Prop
  | .filter input predicates => input.WellFormed catalog ∧ ∀ p ∈ predicates, ∀ q ∈ flattenAnd p,
      Folded q ∧ ∀ c ∈ q.columns, c ∈ input.outputColumns catalog
  | .window input functions partitionKeys orderKeys => input.WellFormed catalog ∧
      (functions.map Prod.snd).Nodup ∧
      (∀ f ∈ functions, f.2.type = .bigint ∧ f.2 ∉ input.scope catalog) ∧
      (∀ c ∈ partitionKeys, c ∈ input.outputColumns catalog) ∧
      ∀ key ∈ orderKeys, key.column ∈ input.outputColumns catalog
  | .limit input _ _ => input.WellFormed catalog
  | .topN input orderKeys _ _ => input.WellFormed catalog ∧
      ∀ key ∈ orderKeys, key.column ∈ input.outputColumns catalog
  | _ => True

/-- What is known above a node fits it: the conjuncts read its columns, and only a window right below
a limit is bounded. -/
structure Context.Fits (catalog : Catalog) (context : Context) (node : Node) : Prop where
  folded : ∀ p ∈ context.pending, Folded p
  columns : ∀ p ∈ context.pending, ∀ c ∈ p.columns, c ∈ node.outputColumns catalog
  rankLimit : context.rankLimit ≠ none → node.isWindow = true ∧ context.pending = []

/-- The columns of a node that are read above. -/
def Context.reads (catalog : Catalog) (context : Context) (node : Node) : Set Column :=
  {c | c ∈ context.required ∧ c ∈ node.outputColumns catalog}

/-- Rows of which a limit above leaves some out. -/
def Keeps (run : Run catalog) (orderKeys : List SortKey) (rankLimit : Option ℕ+)
    (out full : List Row) : Prop :=
  match rankLimit with
  | none => out = full
  | some cap => ∃ rest, (out ++ rest).Perm full ∧
      ∀ r ∈ rest, (cap : ℕ) ≤ out.countP fun y => run.sortLe orderKeys y r

/-- **A rewritten node delivers rows that the node, filtered by the conjuncts above, may return.** -/
structure Sound (run : Run catalog) (node : Node) (context : Context) (result : SimplifiedNode) :
    Prop where
  inScope : result.2.Scoped (node.scope catalog)
  rows : ∀ out' ∈ run.Delivers true result.1, ∃ l ∈ run.Delivers false node, ∃ full,
    run.Filtered context.pending l full ∧ ∃ out,
      Keeps run node.windowOrderKeys context.rankLimit out full ∧
      List.Forall₂ (Agrees result.2 (context.reads catalog node)) out out'

/-- A rewriting succeeds and is sound, whatever is known above the node. -/
def RewritesSoundly (catalog : Catalog) (rewriting : Rewriting) (node : Node) : Prop :=
  ∀ context : Context, context.Fits catalog node → ∃ result, rewriting context = .ok result ∧
    ∀ run : Run catalog, Sound run node context result

/-- How the nodes of other kinds are rewritten. -/
structure Rewriter (catalog : Catalog) where
  rewrite : Node → Context → SimplifiedNode
  sound : ∀ (run : Run catalog) (node : Node) (context : Context), context.Fits catalog node →
    Sound run node context (rewrite node context)

/-! ### Filters above a rewritten node -/

variable {run : Run catalog}

lemma isEmpty_delivers {node : Node} (h : node.isEmpty = true) {l : List Row}
    (hl : l ∈ run.Delivers true node) : l = [] := by
  cases node with
  | empty columns => exact hl
  | _ => cases h

lemma nil_delivers_of_isEmpty {node : Node} (h : node.isEmpty = true) :
    [] ∈ run.Delivers true node := by
  cases node with
  | empty columns => rfl
  | _ => cases h

lemma delivers_maybeWrapFilter {body : Node} {conjuncts : List Expr} {out : List Row}
    (hout : out ∈ run.Delivers true (maybeWrapFilter body conjuncts)) :
    ∃ l ∈ run.Delivers true body, run.Filtered conjuncts l out := by
  rw [maybeWrapFilter] at hout
  split_ifs at hout with h
  · rcases h with rfl | h
    · exact ⟨out, hout, .of_nil out⟩
    · exact ⟨out, hout, by rw [isEmpty_delivers h hout]; exact .nil⟩
  · exact hout

/-- The rows of a node once finished: filtered, and read through what replaces their columns. -/
lemma delivers_finishSimplifiedNode {simplified : SimplifiedNode} {blocked : List Expr}
    {out' : List Row} (hout : out' ∈ run.Delivers true (finishSimplifiedNode simplified blocked).1) :
    ∃ l' ∈ run.Delivers true simplified.1,
      run.Filtered (blocked.map simplified.2.apply) l' out' ∧
      ∀ (columns : Set Column) (out : List Row), List.Forall₂ (Agrees simplified.2 columns) out out' →
        List.Forall₂ (Agrees (finishSimplifiedNode simplified blocked).2 columns) out out' := by
  rw [finishSimplifiedNode] at hout ⊢
  split_ifs at hout ⊢ with hempty
  · obtain rfl := isEmpty_delivers hempty hout
    refine ⟨[], hout, .nil, fun columns out hagree => ?_⟩
    cases hagree
    exact .nil
  · obtain ⟨l', hl', hfiltered⟩ := delivers_maybeWrapFilter hout
    exact ⟨l', hl', hfiltered, fun _ _ h => h⟩

lemma scoped_finishSimplifiedNode {simplified : SimplifiedNode} {blocked : List Expr}
    {scope : Set Column} (h : simplified.2.Scoped scope) :
    (finishSimplifiedNode simplified blocked).2.Scoped scope := by
  rw [finishSimplifiedNode]
  split_ifs
  · exact Substitutions.scoped_none
  · exact h

end Verax.Ranking
