import Verax.Projections.Acceptance

/-!
# Projections keep columns and names

The columns of a projection are those of its expressions, in order, and their names are what a query
means by them.

* `ProjectNode.evaluate`: the row a projection gives.
* `projections_sound`: what `project` and `with` produce, and when they succeed.
* `Swapped`, `Copied`: columns that swap their names, and columns that are copied.
-/

namespace Verax.Projections

open Names (NameMappings QualifiedName ColumnId NameError)
open Lib.Outcome Lib.Dictionary

variable {E T : Type}

/-! ### Rows -/

/-- The value of an expression over a row; what is not a column is evaluated otherwise. -/
def TypedExpr.evaluate {V : Type} (other : T → (ColumnId → V) → V) (row : ColumnId → V) :
    TypedExpr T → V
  | .inputReference id => row id
  | .other expr => other expr row

/-- The row a projection gives for a row of its input.
Source: `LogicalPlanNode.h` `ProjectNode`. -/
def ProjectNode.evaluate {V : Type} (node : ProjectNode T) (other : T → (ColumnId → V) → V)
    (row : ColumnId → V) : List (ColumnId × V) :=
  node.outputNames.zip (node.exprs.map fun expr => expr.evaluate other row)

/-- A projection computes columns: each has its id and the value of its expression. -/
def ProjectNode.Computes (node : ProjectNode T) (columns : List (Column T)) : Prop :=
  node.outputNames = columns.map Column.id ∧
    ∀ (V : Type) (other : T → (ColumnId → V) → V) (row : ColumnId → V),
      node.evaluate other row = columns.map fun c => (c.id, c.expr.evaluate other row)

section Soundness

variable {builder : PlanBuilder} {resolveOther : UntypedExpr E → Except BuilderError (TypedExpr T)}

lemma Made.computes {projections : List (Projection E)} {tracker : NameTracker}
    {first outputs : List (Output T)} {m : NameMappings} {node : ProjectNode T}
    {builder' : PlanBuilder}
    (h : Made builder resolveOther projections tracker first outputs m node builder') :
    node.Computes (first.map Output.column ++ outputs.map Output.column) := by
  rw [← List.map_append]
  refine ⟨?_, fun V other row => ?_⟩
  · rw [h.outputNames, List.map_map]
    rfl
  · rw [ProjectNode.evaluate, h.outputNames, h.exprs, List.map_map, List.zip_map']
    rw [List.map_map]
    rfl

/-- **Projections keep columns and names.** `project` gives one column for each projection, in
order, and `with` after the columns of the input; what the names mean is kept. Accepted lists
succeed. -/
theorem projections_sound (hbuilder : builder.WellFormed) (projections : List (Projection E)) :
    (∀ node builder', builder.project resolveOther projections = .ok (node, builder') →
      ∃ columns, List.Forall₂ (builder.Describes resolveOther) projections columns ∧
        node.Computes columns ∧ KeepsNames builder builder' [] columns) ∧
    (∀ node builder', builder.withColumns resolveOther projections = .ok (node, builder') →
      ∃ columns, List.Forall₂ (builder.Describes resolveOther) projections columns ∧
        node.Computes (passedColumns builder ++ columns) ∧
          KeepsNames builder builder' (passedColumns builder) columns) ∧
    ∀ columns, List.Forall₂ (builder.Describes resolveOther) projections columns →
      (Accepted builder [] columns →
        ∃ result, builder.project resolveOther projections = .ok result) ∧
      (Accepted builder (passedColumns builder) columns →
        ∃ result, builder.withColumns resolveOther projections = .ok result) := by
  refine ⟨fun node builder' h => ?_, fun node builder' h => ?_, fun columns hcolumns => ?_⟩
  · obtain ⟨outputs, m, hmade⟩ := made_of_project hbuilder h
    have htracked : ∀ x ∈ ([] : List String), ∃ o ∈ ([] : List (Output T)),
        builder.Carries o.column x := fun _ hx => absurd hx List.not_mem_nil
    exact ⟨_, hmade.described, hmade.computes, hmade.keepsNames hbuilder rfl htracked⟩
  · obtain ⟨base, outputs, m, hbase, hmade⟩ := made_of_withColumns hbuilder h
    have hpassed : (passedOutputs builder : List (Output T)).map Output.column =
        passedColumns builder := by
      rw [passedOutputs, List.map_map]
      rfl
    have htracked : ∀ x ∈ PlanBuilder.uniqueNames base,
        ∃ o ∈ (passedOutputs builder : List (Output T)), builder.Carries o.column x := by
      intro x hx
      obtain ⟨id, hid⟩ := mem_uniqueNames.mp hx
      rw [hbase] at hid
      have hmem := hbuilder.means _ _ hid
      exact ⟨_, List.mem_map_of_mem hmem, id, ⟨rfl, hmem⟩, _, hid, rfl⟩
    have hcomputes := hmade.computes
    have hkeeps := hmade.keepsNames hbuilder rfl htracked
    rw [hpassed] at hcomputes hkeeps
    exact ⟨_, hmade.described, hcomputes, hkeeps⟩
  · exact ⟨exists_project hbuilder hcolumns, exists_withColumns hbuilder hcolumns⟩

end Soundness

/-! ### Builders that are well formed -/

namespace PlanBuilder

variable {builder : PlanBuilder}

lemma wellFormed_iff : builder.WellFormed ↔ builder.outputs.Nodup ∧
    (∀ id ∈ builder.outputs, id ∈ builder.nameAllocator.names) ∧
      "" ∉ builder.nameAllocator.names ∧ ∀ e ∈ builder.outputMapping.mappings.entries,
        e.2 ∈ builder.outputs ∧ e.1.name ≠ "" ∧
          ∀ e' ∈ builder.outputMapping.mappings.entries, e.2 = e'.2 →
            e.1.name = e'.1.name ∧ (e.1.alias.isSome = e'.1.alias.isSome → e.1 = e'.1) := by
  have hentry : ∀ {name id}, builder.outputMapping.lookup name = some id →
      ⟨name, id⟩ ∈ builder.outputMapping.mappings.entries := mem_entries_iff.mpr
  constructor
  · intro h
    refine ⟨h.nodup, h.taken, h.nonempty, fun e he => ?_⟩
    have hlookup := mem_entries_iff.mp he
    refine ⟨h.means _ _ hlookup, h.named _ _ hlookup, fun e' he' heq => ?_⟩
    exact h.names_unique hlookup (heq ▸ mem_entries_iff.mp he')
  · rintro ⟨hnodup, htaken, hnonempty, hentries⟩
    refine ⟨hnodup, htaken, hnonempty, fun name id h => (hentries _ (hentry h)).1,
      fun name id h => (hentries _ (hentry h)).2.1, fun id => ?_⟩
    exact NameMappings.exists_reverseLookup.mpr fun k k' hk hk' =>
      (hentries _ (hentry hk)).2.2 _ (hentry hk') rfl

instance : Decidable builder.WellFormed := decidable_of_iff' _ wellFormed_iff

end PlanBuilder

/-- Resolves nothing but constants. -/
def resolveConstant : UntypedExpr Unit → Except BuilderError (TypedExpr Unit)
  | .other expr => .ok (.other expr)
  | _ => .error (.unresolved "Cannot resolve")

/-- A run that succeeds, and what is read of its result. -/
lemma exists_of_toOption {ε α β : Type} {run : Except ε α} {f : α → β} {b : β}
    (h : run.toOption.map f = some b) : ∃ a, run = .ok a ∧ f a = b := by
  cases run with
  | error e => cases h
  | ok a => exact ⟨a, rfl, Option.some.inj h⟩

/-! ### Columns that swap their names -/

namespace Swapped

/-- A table `t` with columns `a` and `b`. -/
def builder : PlanBuilder where
  outputs := ["a", "b"]
  outputMapping := { mappings := [⟨⟨some "t", "a"⟩, "a"⟩, ⟨⟨none, "a"⟩, "a"⟩,
    ⟨⟨some "t", "b"⟩, "b"⟩, ⟨⟨none, "b"⟩, "b"⟩].toAList }
  nameAllocator := ⟨["b", "a"], 0⟩
  allowAmbiguousOutputNames := true

/-- `SELECT a AS b, b AS a, t.a`. -/
def swaps : List (Projection Unit) :=
  [⟨.column "a", some "b"⟩, ⟨.column "b", some "a"⟩, ⟨.qualified "t" "a", none⟩]

/-- The projection of the three columns. -/
def node : ProjectNode Unit :=
  ⟨["b_0", "a_1", "a"], [.inputReference "a", .inputReference "b", .inputReference "a"]⟩

/-- The columns and their names are kept. -/
theorem projections_sound_swaps : ∃ builder' columns,
    builder.project resolveConstant swaps = .ok (node, builder') ∧
      List.Forall₂ (builder.Describes resolveConstant) swaps columns ∧ node.Computes columns ∧
        KeepsNames builder builder' [] columns := by
  have hbuilder : builder.WellFormed := by decide +kernel
  have hrun : (builder.project resolveConstant swaps).toOption.map Prod.fst = some node := by
    decide +kernel
  obtain ⟨⟨-, builder'⟩, hproject, rfl⟩ := exists_of_toOption hrun
  obtain ⟨columns, hcolumns⟩ := (projections_sound hbuilder swaps).1 node builder' hproject
  exact ⟨builder', columns, hproject, hcolumns⟩

end Swapped

/-! ### Columns that are copied -/

namespace Copied

/-- A table `u` with a column `a`, whose id is another one. -/
def builder : PlanBuilder where
  outputs := ["a_0"]
  outputMapping := { mappings := [⟨⟨some "u", "a"⟩, "a_0"⟩, ⟨⟨none, "a"⟩, "a_0"⟩].toAList }
  nameAllocator := ⟨["a_0", "a"], 1⟩
  allowAmbiguousOutputNames := true

/-- `SELECT u.a AS a, u.a AS a`. -/
def copies : List (Projection Unit) :=
  [⟨.qualified "u" "a", some "a"⟩, ⟨.qualified "u" "a", some "a"⟩]

/-- Both columns are passed through under `u.a`, which means neither of them; unless names may be
ambiguous, the second one is rejected. -/
theorem copies_unresolved :
    builder.WellFormed ∧ builder.outputMapping.lookup ⟨some "u", "a"⟩ = some "a_0" ∧
      (∃ result, builder.project resolveConstant copies = .ok result ∧
        result.1 = ⟨["a_1", "a_2"], [.inputReference "a_0", .inputReference "a_0"]⟩ ∧
          result.2.outputMapping.lookup ⟨some "u", "a"⟩ = none) ∧
      ∀ result, { builder with allowAmbiguousOutputNames := false }.project resolveConstant copies ≠
        .ok result := by
  refine ⟨by decide +kernel, by decide +kernel, ?_, fun result hresult => ?_⟩
  · have hrun : (builder.project resolveConstant copies).toOption.map
        (fun result => (result.1, result.2.outputMapping.lookup ⟨some "u", "a"⟩)) =
        some (⟨["a_1", "a_2"], [.inputReference "a_0", .inputReference "a_0"]⟩, none) := by
      decide +kernel
    obtain ⟨result, hproject, heq⟩ := exists_of_toOption hrun
    exact ⟨result, hproject, Prod.mk.inj heq⟩
  · have hrun : ({ builder with allowAmbiguousOutputNames := false }.project resolveConstant
        copies).toOption.isNone = true := by
      decide +kernel
    rw [hresult] at hrun
    cases hrun

end Copied

end Verax.Projections
