import Verax.Projections.Columns

/-!
# Names after a projection

What a query means by the names of a projection's columns, and which of these meanings the builder
keeps.

* `Column`, `Carries`, `PassesThrough`: a column of a projection, the name it carries, and the
  qualified names it is passed through under.
* `Plain`, `TrackedByName`: what the names of a column are kept for.
* `KeepsNames`: what the builder keeps.
-/

namespace Verax.Projections

open Names (NameMappings QualifiedName ColumnId NameError)

variable {E T : Type}

namespace PlanBuilder

variable (builder : PlanBuilder)

/-- An expression reads a column of the input, and does nothing else. -/
def Reads (expr : TypedExpr T) (id : ColumnId) : Prop :=
  expr = .inputReference id ∧ id ∈ builder.outputs

/-- A column carries its alias, else the name the input has for the column it reads. -/
def Carries (c : Column T) (name : String) : Prop :=
  match c.alias with
  | some «alias» => «alias» ≠ "" ∧ name = «alias»
  | none => ∃ id, builder.Reads c.expr id ∧
      ∃ n : QualifiedName, builder.outputMapping.lookup n = some id ∧ n.name = name

/-- A column is passed through under a name of the input: its alias, if it has one, restates the
name. -/
def PassesThrough (c : Column T) (name : QualifiedName) : Prop :=
  ∃ id, builder.Reads c.expr id ∧ builder.outputMapping.lookup name = some id ∧
    (c.alias = none ∨ c.alias = some name.name ∧ name.name ≠ "")

/-- The name of a column as the user should see it: its alias, else the name of the column it
reads. -/
def VisibleName (c : Column T) (name : Option String) : Prop :=
  match c.alias with
  | some «alias» => name = some «alias»
  | none => (∃ id, builder.Reads c.expr id ∧ builder.outputName id = .ok name) ∨
      (∀ id, ¬ builder.Reads c.expr id) ∧ name = none

/-- An alias that is the id of the column read is also the column's name, to a query and to the
user. -/
def Plain (c : Column T) : Prop :=
  ∀ id, builder.Reads c.expr id → c.alias = some id →
    (∃ n : QualifiedName, builder.outputMapping.lookup n = some id ∧ n.name = id) ∧
      builder.outputName id = .ok (some id)

/-- Without an alias, a column is a field access if it reads a column of the input, and then the
field has the name that the column carries. -/
def TrackedByName (c : Column T) : Prop :=
  c.alias = none → ∀ name, c.fieldName = some name ↔ builder.Carries c name

end PlanBuilder

/-- A column is a copy of the input's column, with a new id: its alias is the name under which it is
passed through, but not the id of the column. -/
def Column.Copies (c : Column T) (name : QualifiedName) : Prop :=
  c.alias = some name.name ∧ c.expr ≠ .inputReference name.name

/-- **What the builder keeps**: the columns passed through first, then those of the projections.
Where it is not clear that two columns carry a name, or an alias that is an id is not the name of
the column, nothing is said. -/
structure KeepsNames (builder builder' : PlanBuilder) (passed projected : List (Column T)) :
    Prop where
  /-- The columns have distinct ids. -/
  distinct : ((passed ++ projected).map Column.id).Nodup
  outputs : builder'.outputs = (passed ++ projected).map Column.id
  wellFormed : builder'.WellFormed
  /-- An unqualified name means a column that carries it. -/
  carried : ∀ name id, builder'.outputMapping.lookup ⟨none, name⟩ = some id →
    ∃ c ∈ passed ++ projected, c.id = id ∧ builder.Carries c name
  /-- A name that one column carries means this column. -/
  sole : (∀ c ∈ passed ++ projected, builder.Plain c) →
    (∀ c ∈ projected, builder.TrackedByName c) → ∀ c ∈ passed ++ projected, ∀ name,
      builder.Carries c name → (∀ d ∈ passed ++ projected, builder.Carries d name → d = c) →
        builder'.outputMapping.lookup ⟨none, name⟩ = some c.id
  /-- A name that two projections carry, and no column passed through first, means none, unless one
  relation alias alone qualifies it. -/
  several : builder.allowAmbiguousOutputNames = true →
    (∀ c ∈ projected, builder.TrackedByName c) → ∀ c ∈ projected, ∀ d ∈ projected, c ≠ d →
      ∀ name, builder.Carries c name → builder.Carries d name →
        (∀ p ∈ passed, ¬ builder.Carries p name) →
          (¬ ∃! a, (builder'.outputMapping.lookup ⟨some a, name⟩).isSome) →
            builder'.outputMapping.lookup ⟨none, name⟩ = none
  /-- A qualified name means a column passed through under it. -/
  qualified : ∀ name id, name.alias ≠ none → builder'.outputMapping.lookup name = some id →
    ∃ c ∈ passed ++ projected, c.id = id ∧ builder.PassesThrough c name
  /-- A qualified name under which a column is passed through keeps a meaning, unless two columns
  are, and one of them is a copy. -/
  resolves : (∀ c ∈ passed ++ projected, builder.Plain c) → ∀ name, name.alias ≠ none →
    ∀ c ∈ passed ++ projected, builder.PassesThrough c name →
      ((builder'.outputMapping.lookup name).isSome ↔
        (∀ d ∈ passed ++ projected, builder.PassesThrough d name → ¬ d.Copies name) ∨
          ∀ d ∈ passed ++ projected, builder.PassesThrough d name → d = c)
  /-- The user sees the name of each column, if it was recorded or no other column carries it. -/
  visible : (∀ c ∈ passed ++ projected, builder.Plain c) →
    (∀ c ∈ projected, builder.TrackedByName c) → ∀ c ∈ passed ++ projected,
      (c.id ∈ builder.outputs → builder.outputMapping.userName c.id = none →
        ∀ name, builder.Carries c name →
          ∀ d ∈ passed ++ projected, builder.Carries d name → d = c) →
        ∀ name, builder.VisibleName c name → builder'.outputName c.id = .ok name

/-! ### The names of one column -/

section Places

variable {builder : PlanBuilder} {tracker : NameTracker} {seen taken : List ColumnId}
  {o : Output T} {name : QualifiedName} {id : ColumnId}

/-- The names of a column of the input have one base name; one at most is qualified, and one is
not. -/
lemma PlanBuilder.WellFormed.names_unique (h : builder.WellFormed) {k k' : QualifiedName}
    (hk : builder.outputMapping.lookup k = some id)
    (hk' : builder.outputMapping.lookup k' = some id) :
    k.name = k'.name ∧ (k.alias.isSome = k'.alias.isSome → k = k') :=
  NameMappings.exists_reverseLookup.mp (h.names id) k k' hk hk'

lemma PlanBuilder.WellFormed.ne_empty (h : builder.WellFormed) {c : Column T} {x : String}
    (hcarries : builder.Carries c x) : x ≠ "" := by
  unfold Carries at hcarries
  split at hcarries
  · exact hcarries.2 ▸ hcarries.1
  · obtain ⟨id, -, n, hn, rfl⟩ := hcarries
    exact h.named n id hn

lemma mem_identityNames {inputNames : List QualifiedName} {«alias» : Option String} :
    name ∈ identityNames inputNames «alias» ↔
      (∃ a, «alias» = some a ∧ (∀ n ∈ inputNames, n.name ≠ a) ∧ name = ⟨none, a⟩) ∨
        name ∈ inputNames ∧ ∀ a, «alias» = some a → ∃ n ∈ inputNames, n.name = a := by
  cases «alias» with
  | none => simp [identityNames]
  | some a =>
      rw [identityNames]
      by_cases hall : ∀ n ∈ inputNames, n.name ≠ a
      · rw [if_pos (by simpa using hall), List.mem_singleton]
        refine ⟨fun heq => .inl ⟨a, rfl, hall, heq⟩, ?_⟩
        rintro (⟨_, ⟨⟩, -, heq⟩ | ⟨-, hrestates⟩)
        · exact heq
        · obtain ⟨n, hn, hname⟩ := hrestates a rfl
          exact absurd hname (hall n hn)
      · rw [if_neg (by simpa using hall)]
        push Not at hall
        refine ⟨fun hmem => .inr ⟨hmem, fun _ heq => Option.some.inj heq ▸ hall⟩, ?_⟩
        rintro (⟨_, ⟨⟩, hall', -⟩ | ⟨hmem, -⟩)
        · obtain ⟨n, hn, hname⟩ := hall
          exact absurd hname (hall' n hn)
        · exact hmem

lemma mem_keptNames {inputNames : List QualifiedName} {«alias» : String} :
    name ∈ keptNames inputNames «alias» ↔
      name ∈ inputNames ∧ name.alias.isSome ∧ ∃ n ∈ inputNames, n.name = «alias» := by
  rw [keptNames]
  by_cases hall : ∀ n ∈ inputNames, n.name ≠ «alias»
  · rw [if_pos (by simpa using hall)]
    refine iff_of_false List.not_mem_nil ?_
    rintro ⟨-, -, n, hn, hname⟩
    exact hall n hn hname
  · rw [if_neg (by simpa using hall), List.mem_filter]
    push Not at hall
    simp [hall]

/-- A name that a column of the input means is a name of the column that reads it. -/
lemma mem_inputNames {inputNames : List QualifiedName} {expr : TypedExpr T}
    (h : builder.inputNames expr = .ok inputNames) :
    name ∈ inputNames ↔ ∃ id, expr = .inputReference id ∧
      builder.outputMapping.lookup name = some id := by
  cases expr with
  | other expr =>
      cases h
      simp
  | inputReference id =>
      rw [NameMappings.mem_of_reverseLookup (liftNames_eq_ok.mp h)]
      simp

/-- The names of a column are names that it carries, and under the qualified ones it is passed
through. -/
lemma carries_of_gives (hbuilder : builder.WellFormed)
    (h : Places builder tracker seen taken o.alias o.expr o.placement)
    (hname : name ∈ o.placement.gives) :
    builder.Carries o.column name.name ∧
      (name.alias ≠ none → builder.PassesThrough o.column name) := by
  rcases o with ⟨«alias», fieldName, expr, p⟩
  dsimp only at h hname
  cases h with
  | empty => cases hname
  | again => cases hname
  | anonymous => cases hname
  | @identity _ _ id inputNames halias hidentity _ hnames =>
      obtain ⟨rfl, hid, hcase⟩ := identityOf_eq_some.mp hidentity
      have hmem := NameMappings.mem_of_reverseLookup hnames
      rcases mem_identityNames.mp hname with ⟨a, rfl, -, rfl⟩ | ⟨hname, hrestates⟩
      · exact ⟨⟨fun hempty => halias (hempty ▸ rfl), rfl⟩, fun hfalse => absurd rfl hfalse⟩
      · have hlookup := (hmem name).mp hname
        rcases hcase with rfl | rfl
        · exact ⟨⟨id, ⟨rfl, hid⟩, name, hlookup, rfl⟩, fun _ => ⟨id, ⟨rfl, hid⟩, hlookup, .inl rfl⟩⟩
        · obtain ⟨n, hn, hbase⟩ := hrestates id rfl
          have hsame : name.name = id :=
            (hbuilder.names_unique hlookup ((hmem n).mp hn)).1.trans hbase
          have hne : name.name ≠ "" := fun hempty => halias (hempty ▸ hsame ▸ rfl)
          exact ⟨⟨fun hempty => halias (hempty ▸ rfl), hsame⟩,
            fun _ => ⟨id, ⟨rfl, hid⟩, hlookup, .inr ⟨hsame ▸ rfl, hne⟩⟩⟩
  | @named «alias» _ newId inputNames halias hidentity hnames hid =>
      rcases List.mem_cons.mp hname with rfl | hname
      · exact ⟨⟨halias, rfl⟩, fun hfalse => absurd rfl hfalse⟩
      · obtain ⟨hname, -, n, hn, hbase⟩ := mem_keptNames.mp hname
        obtain ⟨id, rfl, hlookup⟩ := (mem_inputNames hnames).mp hname
        obtain ⟨id', heq, hlookup'⟩ := (mem_inputNames hnames).mp hn
        cases heq
        have hsame : name.name = «alias» := (hbuilder.names_unique hlookup hlookup').1.trans hbase
        exact ⟨⟨halias, hsame⟩, fun _ => ⟨id, ⟨rfl, hbuilder.means _ _ hlookup⟩, hlookup,
          .inr ⟨hsame ▸ rfl, hsame ▸ halias⟩⟩⟩

/-- The names of a column have one base name; one at most is qualified. -/
lemma gives_unique (hbuilder : builder.WellFormed)
    (h : Places builder tracker seen taken o.alias o.expr o.placement) {k k' : QualifiedName}
    (hk : k ∈ o.placement.gives) (hk' : k' ∈ o.placement.gives) :
    k.name = k'.name ∧ (k.alias ≠ none → k'.alias ≠ none → k = k') := by
  rcases o with ⟨«alias», fieldName, expr, p⟩
  have hqualified : ∀ {k : QualifiedName}, k.alias ≠ none → k.alias.isSome = true :=
    fun hne => Option.isSome_iff_ne_none.mpr hne
  constructor
  · have hcarries := (carries_of_gives hbuilder h hk).1
    have hcarries' := (carries_of_gives hbuilder h hk').1
    cases «alias» with
    | some a => exact hcarries.2.trans hcarries'.2.symm
    | none =>
        obtain ⟨id, ⟨rfl, -⟩, n, hn, hname⟩ := hcarries
        obtain ⟨id', ⟨heq, -⟩, n', hn', hname'⟩ := hcarries'
        cases heq
        rw [← hname, ← hname']
        exact (hbuilder.names_unique hn hn').1
  · intro halias halias'
    obtain ⟨id, ⟨rfl, -⟩, hlookup, -⟩ := (carries_of_gives hbuilder h hk).2 halias
    obtain ⟨id', ⟨heq, -⟩, hlookup', -⟩ := (carries_of_gives hbuilder h hk').2 halias'
    cases heq
    exact (hbuilder.names_unique hlookup hlookup').2
      ((hqualified halias).trans (hqualified halias').symm)

/-- A column that gives a qualified name is the column of the input that the name means, or a copy
of it. -/
lemma lookup_of_gives (hbuilder : builder.WellFormed)
    (h : Places builder tracker seen taken o.alias o.expr o.placement)
    (hname : name ∈ o.placement.gives) (hqualified : name.alias ≠ none)
    (hcopy : ¬ o.column.Copies name) : builder.outputMapping.lookup name = some o.id := by
  obtain ⟨hcarries, hpass⟩ := carries_of_gives hbuilder h hname
  obtain ⟨id, ⟨hexpr, hid⟩, hlookup, -⟩ := hpass hqualified
  rcases o with ⟨«alias», fieldName, expr, p⟩
  dsimp only [Output.column, Output.id] at h hname hexpr hcarries hcopy ⊢
  subst hexpr
  cases h with
  | empty => cases hname
  | again => cases hname
  | anonymous => cases hname
  | identity halias hidentity _ hnames =>
      obtain ⟨heq, -⟩ := identityOf_eq_some.mp hidentity
      cases heq
      exact hlookup
  | @named «alias» _ newId inputNames halias hidentity hnames hnew =>
      refine absurd ⟨congrArg some hcarries.2.symm, fun heq => ?_⟩ hcopy
      have hsame : id = name.name := TypedExpr.inputReference.inj heq
      have hid' : some «alias» = some id := congrArg some (hcarries.2.symm.trans hsame.symm)
      rw [identityOf_eq_some.mpr ⟨rfl, hid, .inr hid'⟩] at hidentity
      cases hidentity

end Places

/-! ### All columns -/

namespace Laid

variable {builder : PlanBuilder} {tracker : NameTracker} {passed : List ColumnId}
  {outputs : List (Output T)} {m : NameMappings} {o o' : Output T} {name : QualifiedName}

lemma eq_of_id (h : Laid builder tracker passed outputs m) (ho : o ∈ outputs) (ho' : o' ∈ outputs)
    (hid : o.id = o'.id) : o = o' :=
  List.inj_on_of_nodup_map h.nodup ho ho' hid

lemma carries (h : Laid builder tracker passed outputs m) (hbuilder : builder.WellFormed)
    (ho : o ∈ outputs) (hname : name ∈ o.placement.gives) :
    builder.Carries o.column name.name ∧
      (name.alias ≠ none → builder.PassesThrough o.column name) := by
  obtain ⟨seen, taken, hplaces, -⟩ := h.places o ho
  exact carries_of_gives hbuilder hplaces hname

/-- A column with the id of a column of the input is that column, under its names. -/
lemma of_id_mem (h : Laid builder tracker passed outputs m) (ho : o ∈ outputs)
    (hid : o.id ∈ builder.outputs) :
    o.expr = .inputReference o.id ∧ (o.alias = none ∨ o.alias = some o.id ∧ o.id ≠ "") ∧
      o.placement.gives = identityNames (builder.outputMapping.namesOf o.id) o.alias ∧
        o.placement.userName = builder.outputMapping.userName o.id := by
  obtain ⟨seen, taken, hplaces, -, htaken⟩ := h.places o ho
  rcases o with ⟨«alias», fieldName, expr, p⟩
  dsimp only [Output.id] at hplaces hid ⊢
  cases hplaces with
  | empty hnew => exact absurd (htaken _ hid) hnew
  | again _ _ _ _ hnew => exact absurd (htaken _ hid) hnew
  | named _ _ _ hnew => exact absurd (htaken _ hid) hnew
  | anonymous _ hnew => exact absurd (htaken _ hid) hnew
  | identity halias hidentity _ hnames =>
      obtain ⟨rfl, -, hcase⟩ := identityOf_eq_some.mp hidentity
      refine ⟨rfl, hcase.imp_right fun heq => ⟨heq, fun hempty => ?_⟩, ?_, rfl⟩
      · exact halias (heq.trans (congrArg some hempty))
      · rw [NameMappings.reverseLookup_eq hnames]

/-- The names that a column of the input gives, unless its alias is an id that is no name of it. -/
lemma gives_of_plain (h : Laid builder tracker passed outputs m)
    (ho : o ∈ outputs) (hid : o.id ∈ builder.outputs) (hplain : builder.Plain o.column) :
    name ∈ o.placement.gives ↔ builder.outputMapping.lookup name = some o.id := by
  obtain ⟨hexpr, hcase, hgives, -⟩ := h.of_id_mem ho hid
  rw [hgives, mem_identityNames]
  simp only [NameMappings.mem_namesOf]
  rcases hcase with halias | ⟨halias, -⟩
  · simp [halias]
  · obtain ⟨⟨n, hn, hname⟩, -⟩ := hplain o.id ⟨hexpr, hid⟩ halias
    constructor
    · rintro (⟨a, ha, hall, -⟩ | ⟨hlookup, -⟩)
      · rw [halias, Option.some.injEq] at ha
        exact absurd (hname.trans ha) (hall n hn)
      · exact hlookup
    · refine fun hlookup => .inr ⟨hlookup, fun a ha => ⟨n, hn, ?_⟩⟩
      rw [halias, Option.some.injEq] at ha
      exact hname.trans ha

/-- A column that is passed through under a name gives it, or is one more of the same column of the
input, and the first one gives it. -/
lemma gives_of_passesThrough (h : Laid builder tracker passed outputs m)
    (hplain : ∀ o ∈ outputs, builder.Plain o.column)
    (ho : o ∈ outputs) (hname : name.alias ≠ none) (hpass : builder.PassesThrough o.column name) :
    name ∈ o.placement.gives ∨ ¬ o.column.Copies name ∧
      ∃ o' ∈ outputs, builder.outputMapping.lookup name = some o'.id ∧ o'.id ∈ builder.outputs ∧
        name ∈ o'.placement.gives := by
  obtain ⟨seen, taken, hplaces, hseen, htaken⟩ := h.places o ho
  obtain ⟨id, ⟨hexpr, hid⟩, hlookup, hcase⟩ := hpass
  have hoplain := hplain o ho
  rcases o with ⟨«alias», fieldName, expr, p⟩
  dsimp only [Output.column] at hplaces hexpr hcase hoplain ⊢
  subst hexpr
  cases hplaces with
  | empty =>
      rcases hcase with hfalse | ⟨heq, hne⟩
      · cases hfalse
      · exact absurd (Option.some.inj heq).symm hne
  | identity halias hidentity _ hnames =>
      obtain ⟨heq, -, -⟩ := identityOf_eq_some.mp hidentity
      cases heq
      refine .inl ((h.gives_of_plain ho hid hoplain).mpr hlookup)
  | again halias hidentity hmem hnames =>
      obtain ⟨heq, -, halias'⟩ := identityOf_eq_some.mp hidentity
      cases heq
      obtain ⟨o', ho', rfl⟩ := hseen id hid hmem
      refine .inr ⟨fun ⟨hsome, hcopy⟩ => ?_, o', ho', hlookup, hid,
        (h.gives_of_plain ho' hid (hplain o' ho')).mpr hlookup⟩
      dsimp only [Output.column] at hsome hcopy
      rw [hsome] at halias'
      rcases halias' with hfalse | heq
      · cases hfalse
      · exact hcopy (congrArg _ (Option.some.inj heq).symm)
  | named halias hidentity hnames =>
      refine .inl (List.mem_cons_of_mem _ (mem_keptNames.mpr ?_))
      have hmem := (mem_inputNames hnames).mpr ⟨id, rfl, hlookup⟩
      rcases hcase with hfalse | ⟨heq, -⟩
      · cases hfalse
      · exact ⟨hmem, Option.isSome_iff_ne_none.mpr hname, name, hmem, (Option.some.inj heq).symm⟩
  | anonymous hidentity =>
      rw [identityOf_eq_some.mpr ⟨rfl, hid, .inl rfl⟩] at hidentity
      cases hidentity

/-- A column that carries a name gives it, or is one more of the same column of the input, and the
first one gives it. -/
lemma gives_of_carries (h : Laid builder tracker passed outputs m)
    (hplain : ∀ o ∈ outputs, builder.Plain o.column)
    (ho : o ∈ outputs) {x : String} (hcarries : builder.Carries o.column x) :
    (∃ n ∈ o.placement.gives, n.name = x) ∨
      ∃ o' ∈ outputs, o'.id ≠ o.id ∧ ∃ n ∈ o'.placement.gives, n.name = x := by
  obtain ⟨seen, taken, hplaces, hseen, htaken⟩ := h.places o ho
  have hoplain := hplain o ho
  rcases o with ⟨«alias», fieldName, expr, p⟩
  dsimp only [Output.column, Output.id] at hplaces hcarries hoplain ⊢
  -- The names of a column that is read, under its id or without an alias.
  have hread : ∀ {id : ColumnId}, builder.identityOf «alias» expr = some id →
      ∃ n : QualifiedName, builder.outputMapping.lookup n = some id ∧ n.name = x := by
    intro id hidentity
    obtain ⟨rfl, hid, rfl | rfl⟩ := identityOf_eq_some.mp hidentity
    · obtain ⟨id', ⟨heq, -⟩, hnames⟩ := hcarries
      cases heq
      exact hnames
    · obtain ⟨n, hn, hname⟩ := (hoplain id ⟨rfl, hid⟩ rfl).1
      exact ⟨n, hn, hname.trans hcarries.2.symm⟩
  cases hplaces with
  | empty => exact absurd rfl hcarries.1
  | identity halias hidentity _ hnames =>
      obtain ⟨n, hn, hname⟩ := hread hidentity
      obtain ⟨rfl, hid, -⟩ := identityOf_eq_some.mp hidentity
      exact .inl ⟨n, (h.gives_of_plain ho hid hoplain).mpr hn, hname⟩
  | again halias hidentity hmem hnames hnew =>
      obtain ⟨n, hn, hname⟩ := hread hidentity
      obtain ⟨rfl, hid, -⟩ := identityOf_eq_some.mp hidentity
      obtain ⟨o', ho', rfl⟩ := hseen _ hid hmem
      refine .inr ⟨o', ho', fun heq => ?_, n, (h.gives_of_plain ho' hid (hplain o' ho')).mpr hn,
        hname⟩
      dsimp only [Output.id] at heq
      exact hnew (heq ▸ htaken _ hid)
  | named => exact .inl ⟨_, List.mem_cons_self, hcarries.2.symm⟩
  | anonymous hidentity =>
      obtain ⟨id, ⟨rfl, hid⟩, -⟩ := hcarries
      rw [identityOf_eq_some.mpr ⟨rfl, hid, .inl rfl⟩] at hidentity
      cases hidentity

end Laid

end Verax.Projections
