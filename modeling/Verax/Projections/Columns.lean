import Verax.Names.Resolution
import Verax.Projections.Placement

/-!
# The columns of a projection

What a projection of the builder consists of, alone or after the columns of its input, and what the
names mean before unqualified access is enabled.

* `Column`, `Output`, `Laid`: the columns and their names.
* `made_of_project`, `made_of_withColumns`: the columns of both kinds of projection.
-/

namespace Verax.Projections

open Names (NameMappings QualifiedName ColumnId NameError)
open Lib.Outcome

variable {E T : Type}

/-- A column of a projection: what it is given by, and its id. -/
structure Column (T : Type) where
  «alias» : Option String
  fieldName : Option String
  expr : TypedExpr T
  id : ColumnId

/-- What a column is given by, and the projection it is for.
Source: `PlanBuilder.cpp` `resolveProjections`, `projection` and `expr`. -/
def PlanBuilder.Describes (builder : PlanBuilder)
    (resolveOther : UntypedExpr E → Except BuilderError (TypedExpr T)) (p : Projection E)
    (c : Column T) : Prop :=
  c.alias = p.alias ∧ c.fieldName = p.expr.fieldName ∧
    builder.resolve resolveOther p.expr = .ok c.expr

/-- What a column is given by, and where it goes. -/
structure Output (T : Type) where
  «alias» : Option String
  fieldName : Option String
  expr : TypedExpr T
  placement : Placement

namespace Output

/-- The id of an output's column. -/
abbrev id (o : Output T) : ColumnId := o.placement.id

/-- The column of an output. -/
def column (o : Output T) : Column T := ⟨o.alias, o.fieldName, o.expr, o.id⟩

end Output

/-- The columns of a projection, in order, the first of which may be passed through from the input;
and what the names mean. -/
structure Laid (builder : PlanBuilder) (tracker : NameTracker) (passed : List ColumnId)
    (outputs : List (Output T)) (m : NameMappings) : Prop where
  nodup : (outputs.map Output.id).Nodup
  places : ∀ o ∈ outputs, ∃ seen taken,
    Places builder tracker seen taken o.alias o.expr o.placement ∧
      (∀ id ∈ builder.outputs, id ∈ seen → ∃ o' ∈ outputs, o'.id = id) ∧
      ∀ id ∈ builder.outputs, id ∈ taken
  unqualified : ∀ name id, m.lookup ⟨none, name⟩ = some id ↔ ∃ o ∈ outputs, o.id = id ∧
    ⟨none, name⟩ ∈ o.placement.gives ∧ (id ∈ passed ∨ name ∉ tracker.duplicates)
  qualified : ∀ (name : QualifiedName) id, name.alias ≠ none → (m.lookup name = some id ↔
    (∃ o ∈ outputs, o.id = id ∧ name ∈ o.placement.gives) ∧
      ∀ o ∈ outputs, name ∈ o.placement.gives → o.id = id)
  ambiguous : ∀ name ∈ m.ambiguousNames, name.alias ≠ none
  users : ∀ id name, m.userName id = some name ↔
    ∃ o ∈ outputs, o.id = id ∧ o.placement.userName = some name

variable {builder : PlanBuilder} {resolveOther : UntypedExpr E → Except BuilderError (TypedExpr T)}
  {tracker : NameTracker} {base : NameMappings} {passed : List ColumnId}

/-- A run over projections: one column for each, in order. -/
lemma foldlM_resolveProjection : ∀ {projections : List (Projection E)}
    {placements : List Placement} {placed placed' : Placed T},
      PlacedInv builder tracker base passed placements placed →
      projections.foldlM (builder.resolveProjection resolveOther tracker) placed = .ok placed' →
        ∃ outputs : List (Output T),
          List.Forall₂ (builder.Describes resolveOther) projections (outputs.map Output.column) ∧
          placed'.exprs = placed.exprs ++ outputs.map Output.expr ∧
          PlacedInv builder tracker base passed (placements ++ outputs.map Output.placement)
            placed' ∧
          ∀ o ∈ outputs, ∃ seen taken,
            Places builder tracker seen taken o.alias o.expr o.placement ∧
              (∀ id ∈ builder.outputs, id ∈ seen → id ∈ placed'.outputNames) ∧
              ∀ id ∈ builder.outputs, id ∈ taken
  | [], placements, placed, placed', h, hfold => by
      cases hfold
      exact ⟨[], .nil, by simp, by simpa using h, by simp⟩
  | projection :: projections, placements, placed, placed', h, hfold => by
      obtain ⟨placed₁, hstep, hrest⟩ := foldlM_cons_eq_ok.mp hfold
      obtain ⟨expr, hexpr, hstep₁⟩ := bind_eq_ok.mp hstep
      obtain ⟨placed₂, hplace, hstep₂⟩ := bind_eq_ok.mp hstep₁
      cases hstep₂
      obtain ⟨p, hplaces, hinv⟩ := place_spec h hplace
      have hinv' : PlacedInv builder tracker base passed (placements ++ [p])
          { placed₂ with exprs := placed₂.exprs ++ [expr] } :=
        ⟨hinv.ids, hinv.nodup, hinv.taken, hinv.nonempty, hinv.seen, hinv.tracked, hinv.users⟩
      obtain ⟨outputs, houtputs, hexprs, hfinal, hall⟩ := foldlM_resolveProjection hinv' hrest
      have hsame : placed₂.exprs = placed.exprs := exprs_of_place hplace
      refine ⟨⟨projection.alias, projection.expr.fieldName, expr, p⟩ :: outputs,
        .cons ⟨rfl, rfl, hexpr⟩ houtputs, ?_, ?_, ?_⟩
      · rw [hexprs, hsame, List.append_assoc]
        rfl
      · rw [List.append_assoc] at hfinal
        exact hfinal
      · rintro o (_ | ⟨_, ho⟩)
        · refine ⟨_, _, hplaces, fun id hid hseen => ?_, fun id hid => h.taken id (.inr hid)⟩
          have hmem := (h.seen id hid).mp hseen
          rw [hfinal.ids]
          rw [h.ids] at hmem
          rcases List.mem_append.mp hmem with hmem | hmem
          · exact List.mem_append_left _ hmem
          · simp only [List.map_append, List.mem_append]
            exact .inr (.inl (.inl hmem))
        · exact hall o ho

/-! ### The builder -/

/-- What holds of every builder: its columns are distinct, their ids were given out and no id that
was given out is empty, names mean columns of the plan and are not empty, and each column passes the
check of its names.
Source: `PlanBuilder.h` `PlanBuilder`, `NameMappings.cpp` `reverseLookup`. -/
structure PlanBuilder.WellFormed (builder : PlanBuilder) : Prop where
  nodup : builder.outputs.Nodup
  taken : ∀ id ∈ builder.outputs, id ∈ builder.nameAllocator.names
  nonempty : "" ∉ builder.nameAllocator.names
  means : ∀ name id, builder.outputMapping.lookup name = some id → id ∈ builder.outputs
  named : ∀ name id, builder.outputMapping.lookup name = some id → name.name ≠ ""
  names : ∀ id, ∃ names, builder.outputMapping.reverseLookup id = .ok names

lemma mem_pairsOf {placements : List Placement} {name : QualifiedName} {id : ColumnId} :
    (name, id) ∈ pairsOf placements ↔ ∃ p ∈ placements, p.id = id ∧ name ∈ p.gives := by
  simp only [pairsOf, List.mem_flatMap, List.mem_map, Prod.mk.injEq]
  constructor
  · rintro ⟨p, hp, n, hn, rfl, rfl⟩
    exact ⟨p, hp, rfl, hn⟩
  · rintro ⟨p, hp, rfl, hn⟩
    exact ⟨p, hp, name, hn, rfl, rfl⟩

/-- The columns of a run over projections, after columns passed through. -/
lemma Laid.of_inv {first outputs : List (Output T)} {placed : Placed T}
    (h : PlacedInv builder tracker base passed (outputs.map Output.placement) placed)
    (hpassed : passed = first.map Output.id)
    (hplaces : ∀ o ∈ first ++ outputs, ∃ seen taken,
      Places builder tracker seen taken o.alias o.expr o.placement ∧
        (∀ id ∈ builder.outputs, id ∈ seen → id ∈ placed.outputNames) ∧
        ∀ id ∈ builder.outputs, id ∈ taken)
    (hlookup : ∀ name id, base.lookup name = some id ↔
      ∃ o ∈ first, o.id = id ∧ name ∈ o.placement.gives)
    (husers : ∀ id name, base.userName id = some name ↔
      ∃ o ∈ first, o.id = id ∧ o.placement.userName = some name) :
    Laid builder tracker passed (first ++ outputs) placed.mappings := by
  have hids : placed.outputNames = (first ++ outputs).map Output.id := by
    rw [h.ids, hpassed, List.map_append, List.map_map]
    rfl
  have hmem : ∀ id, id ∈ placed.outputNames ↔ ∃ o ∈ first ++ outputs, o.id = id := by
    intro id
    rw [hids, List.mem_map]
  have hpairs : ∀ name id, (name, id) ∈ pairsOf (outputs.map Output.placement) ↔
      ∃ o ∈ outputs, o.id = id ∧ name ∈ o.placement.gives := by
    intro name id
    rw [mem_pairsOf]
    simp only [List.mem_map, exists_exists_and_eq_and]
  have hholds : ∀ name id, Holds base (pairsOf (outputs.map Output.placement)) name id ↔
      ∃ o ∈ first ++ outputs, o.id = id ∧ name ∈ o.placement.gives := by
    intro name id
    rw [Holds, hlookup, hpairs]
    simp only [List.mem_append, or_and_right, exists_or]
  have hnodup := h.nodup
  rw [hids] at hnodup
  refine ⟨hnodup, fun o ho => ?_, fun name id => ?_, fun name id hname => ?_,
    fun name hname => ((h.tracked.ambiguous name).mp hname).1, fun id name => ?_⟩
  · obtain ⟨seen, taken, hplace, hseen, htaken⟩ := hplaces o ho
    exact ⟨seen, taken, hplace, fun id hid hid' => (hmem id).mp (hseen id hid hid'), htaken⟩
  · rw [h.tracked.unqualified, hlookup, hpairs]
    constructor
    · rintro (⟨o, ho, hid, hname⟩ | ⟨hfree, o, ho, hid, hname⟩)
      · exact ⟨o, List.mem_append_left _ ho, hid, hname,
          .inl (hpassed ▸ hid ▸ List.mem_map_of_mem ho)⟩
      · exact ⟨o, List.mem_append_right _ ho, hid, hname, .inr hfree⟩
    · rintro ⟨o, ho, hid, hname, hfree⟩
      rcases List.mem_append.mp ho with ho | ho
      · exact .inl ⟨o, ho, hid, hname⟩
      · refine .inr ⟨hfree.resolve_left fun hmem => ?_, o, ho, hid, hname⟩
        rw [List.map_append, ← hpassed] at hnodup
        exact (List.disjoint_of_nodup_append hnodup) hmem (hid ▸ List.mem_map_of_mem ho)
  · rw [h.tracked.qualified name id hname, hholds]
    refine and_congr_right fun _ => ⟨fun hsole o ho hgives => ?_, fun hsole id' hid' => ?_⟩
    · exact hsole o.id ((hholds _ _).mpr ⟨o, ho, rfl, hgives⟩)
    · obtain ⟨o, ho, rfl, hgives⟩ := (hholds _ _).mp hid'
      exact hsole o ho hgives
  · rw [h.users, husers]
    simp only [List.mem_append, or_and_right, exists_or, List.mem_map, exists_exists_and_eq_and]

/-- Before any projection, after columns passed through. -/
lemma PlacedInv.start (h : builder.WellFormed) (hnodup : passed.Nodup)
    (hpassed : ∀ id ∈ passed, id ∈ builder.outputs) (hbase : base.ambiguousNames = [])
    (exprs : List (TypedExpr T)) :
    PlacedInv builder tracker base passed []
      (⟨passed, exprs, base, passed, builder.nameAllocator⟩ : Placed T) where
  ids := (List.append_nil passed).symm
  nodup := hnodup
  taken id hid := h.taken id (hid.elim (hpassed id) fun hid => hid)
  nonempty := h.nonempty
  seen _ _ := Iff.rfl
  tracked := .nil hbase
  users _ _ := by simp

/-- What a projection is made of: its columns, in order, after some columns passed through. -/
structure Made (builder : PlanBuilder)
    (resolveOther : UntypedExpr E → Except BuilderError (TypedExpr T))
    (projections : List (Projection E)) (tracker : NameTracker) (first outputs : List (Output T))
    (m : NameMappings) (node : ProjectNode T) (builder' : PlanBuilder) : Prop where
  described : List.Forall₂ (builder.Describes resolveOther) projections
    (outputs.map Output.column)
  outputNames : node.outputNames = (first ++ outputs).map Output.id
  exprs : node.exprs = (first ++ outputs).map Output.expr
  columns : builder'.outputs = node.outputNames
  taken : ∀ id ∈ builder'.outputs, id ∈ builder'.nameAllocator.names
  nonempty : "" ∉ builder'.nameAllocator.names
  enabled : m.enableUnqualifiedAccess = .ok builder'.outputMapping
  laid : Laid builder tracker (first.map Output.id) (first ++ outputs) m

/-- A run over projections, after columns passed through whose names are kept. -/
lemma made_of_run (hbuilder : builder.WellFormed) {projections : List (Projection E)}
    {node : ProjectNode T} {builder' : PlanBuilder} {first : List (Output T)}
    (hbase : base.ambiguousNames = []) (hnodup : (first.map Output.id).Nodup)
    (hfirst : ∀ o ∈ first, o.id ∈ builder.outputs ∧ ∃ taken,
      Places builder tracker [] taken o.alias o.expr o.placement ∧
        ∀ id ∈ builder.outputs, id ∈ taken)
    (hlookup : ∀ name id, base.lookup name = some id ↔
      ∃ o ∈ first, o.id = id ∧ name ∈ o.placement.gives)
    (husers : ∀ id name, base.userName id = some name ↔
      ∃ o ∈ first, o.id = id ∧ o.placement.userName = some name)
    {placed : Placed T} (hrun : projections.foldlM (builder.resolveProjection resolveOther tracker)
      ⟨first.map Output.id, first.map Output.expr, base, first.map Output.id,
        builder.nameAllocator⟩ = .ok placed)
    (hfinish : builder.finish placed = .ok (node, builder')) :
    ∃ outputs m, Made builder resolveOther projections tracker first outputs m node builder' := by
  obtain ⟨mapping, hmapping, hfinish₁⟩ := bind_eq_ok.mp hfinish
  cases hfinish₁
  have hpassed : ∀ id ∈ first.map Output.id, id ∈ builder.outputs := by
    intro id hid
    obtain ⟨o, ho, rfl⟩ := List.mem_map.mp hid
    exact (hfirst o ho).1
  obtain ⟨outputs, houtputs, hexprs, hinv, hplaces⟩ :=
    foldlM_resolveProjection (.start hbuilder hnodup hpassed hbase _) hrun
  have hids : placed.outputNames = (first ++ outputs).map Output.id := by
    rw [hinv.ids]
    simp [Function.comp_def]
  refine ⟨outputs, placed.mappings, houtputs, hids, by rw [hexprs, List.map_append], rfl,
    fun id hid => hinv.taken id (.inl hid), hinv.nonempty, liftNames_eq_ok.mp hmapping,
    Laid.of_inv hinv rfl (fun o ho => ?_) hlookup husers⟩
  rcases List.mem_append.mp ho with ho | ho
  · obtain ⟨-, taken, hplace, htaken⟩ := hfirst o ho
    exact ⟨[], taken, hplace, fun _ _ hid => absurd hid List.not_mem_nil, htaken⟩
  · exact hplaces o ho

/-- What `project` does. -/
lemma made_of_project (hbuilder : builder.WellFormed) {projections : List (Projection E)}
    {node : ProjectNode T} {builder' : PlanBuilder}
    (h : builder.project resolveOther projections = .ok (node, builder')) :
    ∃ outputs m, Made builder resolveOther projections (.track builder.allowAmbiguousOutputNames
      (PlanBuilder.trackedNames projections)) [] outputs m node builder' := by
  obtain ⟨placed, hplaced, hfinish⟩ := bind_eq_ok.mp h
  refine made_of_run hbuilder rfl List.nodup_nil (by simp) (fun name id => ?_) (fun id name => ?_)
    hplaced hfinish
  · exact iff_of_false nofun (by simp)
  · exact iff_of_false nofun (by simp)

/-- The columns of the input, passed through. -/
def passedOutputs (builder : PlanBuilder) : List (Output T) :=
  builder.outputs.map fun id => ⟨none, none, .inputReference id,
    ⟨id, builder.outputMapping.namesOf id, builder.outputMapping.userName id⟩⟩

lemma userName_of_keepNames {source m m' : NameMappings} {id : ColumnId}
    (h : Names.PlanBuilder.keepNames source m id = .ok m') (id' : ColumnId) (name : String) :
    m'.userName id' = some name ↔
      m.userName id' = some name ∨ id = id' ∧ source.userName id = some name := by
  obtain ⟨names, -, h₁⟩ := bind_eq_ok.mp h
  obtain ⟨m₁, hfold, h₂⟩ := bind_eq_ok.mp h₁
  have hm₁ : m₁.userName id' = m.userName id' := by
    rw [NameMappings.userName, userNames_of_foldlM_add hfold, NameMappings.userName]
  unfold NameMappings.copyUserName at h₂
  split at h₂
  · next hname =>
    rw [userName_of_addUserName h₂, hm₁, hname]
    simp
  · next hnone =>
    cases h₂
    rw [hm₁, hnone]
    simp

lemma userName_of_foldlM_keepNames (source : NameMappings) : ∀ (l : List ColumnId)
    (m m' : NameMappings), l.foldlM (Names.PlanBuilder.keepNames source) m = .ok m' →
      ∀ id name, m'.userName id = some name ↔
        m.userName id = some name ∨ id ∈ l ∧ source.userName id = some name
  | [], m, m', h, id, name => by
      cases h
      simp
  | i :: l, m, m', h, id, name => by
      obtain ⟨m₁, hstep, hrest⟩ := foldlM_cons_eq_ok.mp h
      rw [userName_of_foldlM_keepNames source l m₁ m' hrest, userName_of_keepNames hstep,
        List.mem_cons]
      constructor
      · rintro ((huser | ⟨rfl, huser⟩) | ⟨hid, huser⟩)
        · exact .inl huser
        · exact .inr ⟨.inl rfl, huser⟩
        · exact .inr ⟨.inr hid, huser⟩
      · rintro (huser | ⟨rfl | hid, huser⟩)
        · exact .inl (.inl huser)
        · exact .inl (.inr ⟨rfl, huser⟩)
        · exact .inr ⟨hid, huser⟩

/-- What `with` does. -/
lemma made_of_withColumns (hbuilder : builder.WellFormed) {projections : List (Projection E)}
    {node : ProjectNode T} {builder' : PlanBuilder}
    (h : builder.withColumns resolveOther projections = .ok (node, builder')) :
    ∃ base outputs m, (∀ name, base.lookup name = builder.outputMapping.lookup name) ∧
      Made builder resolveOther projections (.track builder.allowAmbiguousOutputNames
        (PlanBuilder.uniqueNames base ++ PlanBuilder.trackedNames projections))
        (passedOutputs builder) outputs m node builder' := by
  obtain ⟨base, hbase, h₁⟩ := bind_eq_ok.mp h
  obtain ⟨placed, hplaced, hfinish⟩ := bind_eq_ok.mp h₁
  have hbase := liftNames_eq_ok.mp hbase
  obtain ⟨hambiguous, -, hlookup⟩ := Names.JoinTree.lookup_of_foldlM_keepNames _ _ _ _ rfl hbase
  have hlookup : ∀ name id, base.lookup name = some id ↔
      builder.outputMapping.lookup name = some id := by
    intro name id
    rw [hlookup]
    constructor
    · rintro (hfalse | ⟨-, hid⟩)
      · cases hfalse
      · exact hid
    · exact fun hid => .inr ⟨hbuilder.means name id hid, hid⟩
  have hids : (passedOutputs builder : List (Output T)).map Output.id = builder.outputs := by
    simp [passedOutputs, Function.comp_def]
  have hexprs : (passedOutputs builder : List (Output T)).map Output.expr =
      builder.outputs.map .inputReference := by
    simp [passedOutputs, Function.comp_def]
  have hmade : ∃ outputs m, Made builder resolveOther projections
      (.track builder.allowAmbiguousOutputNames
        (PlanBuilder.uniqueNames base ++ PlanBuilder.trackedNames projections))
      (passedOutputs builder) outputs m node builder' := by
    have hrun := hplaced
    rw [PlanBuilder.resolveProjections, ← hexprs] at hrun
    rw [← hids] at hrun
    refine made_of_run hbuilder hambiguous (hids ▸ hbuilder.nodup) (fun o ho => ?_)
      (fun name id => ?_) (fun id name => ?_) hrun hfinish
    · obtain ⟨id, hid, rfl⟩ := List.mem_map.mp ho
      obtain ⟨names, hnames⟩ := hbuilder.names id
      refine ⟨hid, builder.outputs, ?_, fun _ hid => hid⟩
      rw [← NameMappings.reverseLookup_eq hnames]
      exact .identity (by simp) (identityOf_eq_some.mpr ⟨rfl, hid, .inl rfl⟩)
        List.not_mem_nil hnames
    · rw [hlookup]
      constructor
      · intro hname
        exact ⟨_, List.mem_map_of_mem (hbuilder.means name id hname), rfl,
          NameMappings.mem_namesOf.mpr hname⟩
      · rintro ⟨o, ho, rfl, hname⟩
        obtain ⟨id, hid, rfl⟩ := List.mem_map.mp ho
        exact NameMappings.mem_namesOf.mp hname
    · rw [userName_of_foldlM_keepNames _ _ _ _ hbase]
      constructor
      · rintro (hfalse | ⟨hid, huser⟩)
        · cases hfalse
        · exact ⟨_, List.mem_map_of_mem hid, rfl, huser⟩
      · rintro ⟨o, ho, rfl, huser⟩
        obtain ⟨id, hid, rfl⟩ := List.mem_map.mp ho
        exact .inr ⟨hid, huser⟩
  obtain ⟨outputs, m, hmade⟩ := hmade
  exact ⟨base, outputs, m, fun name => Option.ext (hlookup name), hmade⟩

end Verax.Projections
