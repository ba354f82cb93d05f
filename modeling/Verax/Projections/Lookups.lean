import Verax.Projections.KeptNames

/-!
# What names mean after a projection

The names after a projection are those of its columns, and the unqualified names that only one
qualified name leaves.

* `Made.carried`, `Made.sole`, `Made.several`: unqualified names.
* `Made.qualified`, `Made.resolves`: qualified names.
* `Made.visible`: the names as the user sees them.
* `Made.keepsNames`: all of these.
-/

namespace Verax.Projections

open Names (NameMappings QualifiedName ColumnId NameError)
open Lib.Outcome

variable {E T : Type}

/-! ### Names that several entries have -/

section Counts

variable {α β : Type} [DecidableEq β] {f : α → Option β} {b : β} {l : List α}

/-- A name that only one entry has is counted once at most. -/
lemma count_filterMap_le_one (hl : l.Nodup) {a : α} (h : ∀ a' ∈ l, f a' = some b → a' = a) :
    (l.filterMap f).count b ≤ 1 := by
  induction l with
  | nil => simp
  | cons x l ih =>
    obtain ⟨hx, hl⟩ := List.nodup_cons.mp hl
    have hrest := ih hl fun a' ha' => h a' (List.mem_cons_of_mem x ha')
    rcases hfx : f x with - | b'
    · rwa [List.filterMap_cons_none hfx]
    · rw [List.filterMap_cons_some hfx, List.count_cons]
      split
      · next heq =>
        have hb : f x = some b := by rw [hfx, eq_of_beq heq]
        have hzero : (l.filterMap f).count b = 0 := by
          refine List.count_eq_zero.mpr fun hmem => ?_
          obtain ⟨a', ha', hfa'⟩ := List.mem_filterMap.mp hmem
          have := (h a' (List.mem_cons_of_mem x ha') hfa').trans (h x List.mem_cons_self hb).symm
          exact hx (this ▸ ha')
        omega
      · exact hrest

/-- A name that two entries have is counted twice. -/
lemma pairwise_two_le_count :
    l.Pairwise fun a a' => f a = some b → f a' = some b → 2 ≤ (l.filterMap f).count b := by
  refine List.pairwise_iff_forall_sublist.mpr fun {a a'} hsub hf hf' => ?_
  have hcount := (hsub.filterMap f).count_le b
  rw [List.filterMap_cons_some hf, List.filterMap_cons_some hf', List.filterMap_nil] at hcount
  simpa using hcount

lemma two_le_count_filterMap {a a' : α} (ha : a ∈ l) (ha' : a' ∈ l) (hne : a ≠ a')
    (hf : f a = some b) (hf' : f a' = some b) : 2 ≤ (l.filterMap f).count b := by
  have : Std.Symm fun a a' => f a = some b → f a' = some b → 2 ≤ (l.filterMap f).count b :=
    ⟨fun _ _ hle h h' => hle h' h⟩
  exact pairwise_two_le_count.forall ha ha' hne hf hf'

end Counts

lemma NameTracker.mem_duplicates {allowDuplicates : Bool} {names : List String} {name : String} :
    name ∈ (track allowDuplicates names).duplicates ↔
      allowDuplicates = true ∧ name ≠ "" ∧ 2 ≤ names.count name := by
  rw [track]
  cases allowDuplicates with
  | false => simp
  | true =>
      simp only [if_true, List.mem_filter, decide_eq_true_eq, true_and]
      exact and_iff_right_of_imp fun h => List.count_pos_iff.mp (by omega)

/-- The names tracked are those of the columns. -/
lemma trackedNames_eq {builder : PlanBuilder}
    {resolveOther : UntypedExpr E → Except BuilderError (TypedExpr T)}
    {projections : List (Projection E)} {columns : List (Column T)}
    (h : List.Forall₂ (builder.Describes resolveOther) projections columns) :
    PlanBuilder.trackedNames projections = columns.filterMap fun c => c.alias.or c.fieldName := by
  induction h with
  | nil => rfl
  | cons hstep _ ih =>
    obtain ⟨halias, hfield, -⟩ := hstep
    rw [PlanBuilder.trackedNames] at ih ⊢
    rw [List.filterMap_cons, List.filterMap_cons, halias, hfield, ih]

/-- A column is tracked under the name that it carries. -/
lemma tracked_iff {builder : PlanBuilder} {c : Column T} (h : builder.TrackedByName c) {x : String}
    (hx : x ≠ "") : c.alias.or c.fieldName = some x ↔ builder.Carries c x := by
  rcases c with ⟨- | a, fieldName, expr, id⟩
  · exact h rfl x
  · rw [Option.some_or, Option.some.injEq]
    exact ⟨fun heq => ⟨heq ▸ hx, heq.symm⟩, fun hcarries => hcarries.2.symm⟩

/-- The names of a list with one base name. -/
lemma pickName_eq {names : List QualifiedName} {name : String} (hnonempty : names ≠ [])
    (h : ∀ n ∈ names, n.name = name) : pickName names = some name := by
  unfold pickName
  split
  · next n hfind => rw [h n (List.mem_of_find?_eq_some hfind)]
  · obtain ⟨n, rest, rfl⟩ := List.exists_cons_of_ne_nil hnonempty
    rw [List.head?_cons, Option.map_some, h n List.mem_cons_self]

lemma PlanBuilder.outputName_eq {builder : PlanBuilder} {id : ColumnId}
    {names : List QualifiedName} (hnames : builder.outputMapping.reverseLookup id = .ok names) :
    builder.outputName id = .ok ((builder.outputMapping.userName id).or (pickName names)) := by
  rw [outputName, hnames]
  cases builder.outputMapping.userName id with
  | none => rfl
  | some name => rfl

namespace Made

variable {builder builder' : PlanBuilder} {node : ProjectNode T}
  {resolveOther : UntypedExpr E → Except BuilderError (TypedExpr T)}
  {projections : List (Projection E)} {tracker : NameTracker} {first outputs : List (Output T)}
  {m : NameMappings}

/-! ### Lookups -/

section Lookups

variable (h : Made builder resolveOther projections tracker first outputs m node builder')
include h

lemma lookup_qualified {name : QualifiedName} (hname : name.alias ≠ none) :
    builder'.outputMapping.lookup name = m.lookup name := by
  obtain ⟨-, -, hlookup⟩ :=
    NameMappings.lookup_of_enableUnqualifiedAccess h.laid.ambiguous h.enabled
  refine Option.ext fun id => ?_
  rw [hlookup]
  exact or_iff_left fun hfalse => hname hfalse.1

lemma lookup_unqualified {x : String} {id : ColumnId} :
    builder'.outputMapping.lookup ⟨none, x⟩ = some id ↔ m.lookup ⟨none, x⟩ = some id ∨
      m.countOf x = 1 ∧ ∃ a, m.lookup ⟨some a, x⟩ = some id := by
  obtain ⟨-, -, hlookup⟩ :=
    NameMappings.lookup_of_enableUnqualifiedAccess h.laid.ambiguous h.enabled
  rw [hlookup]
  exact or_congr_right (and_iff_right rfl)

lemma userName_eq (id : ColumnId) : builder'.outputMapping.userName id = m.userName id := by
  have hfold := h.enabled
  unfold NameMappings.enableUnqualifiedAccess at hfold
  rw [NameMappings.userName, userNames_of_foldlM_add hfold, NameMappings.userName]

/-- A name means a column that gives it, or gives a qualified name with the same base name. -/
lemma gives_of_lookup {k : QualifiedName} {id : ColumnId}
    (hlookup : builder'.outputMapping.lookup k = some id) : ∃ o ∈ first ++ outputs, o.id = id ∧
      ∃ n ∈ o.placement.gives, n.name = k.name ∧ (k.alias ≠ none → n = k) := by
  have hsome : ∀ a x, m.lookup ⟨some a, x⟩ = some id →
      ∃ o ∈ first ++ outputs, o.id = id ∧ ⟨some a, x⟩ ∈ o.placement.gives :=
    fun a x hm => ((h.laid.qualified _ id (Option.some_ne_none a)).mp hm).1
  rcases k with ⟨- | a, x⟩
  · rcases h.lookup_unqualified.mp hlookup with hm | ⟨-, a, hm⟩
    · obtain ⟨o, ho, hid, hgives, -⟩ := (h.laid.unqualified x id).mp hm
      exact ⟨o, ho, hid, _, hgives, rfl, fun _ => rfl⟩
    · obtain ⟨o, ho, hid, hgives⟩ := hsome a x hm
      exact ⟨o, ho, hid, _, hgives, rfl, fun hfalse => absurd rfl hfalse⟩
  · rw [h.lookup_qualified (Option.some_ne_none a)] at hlookup
    obtain ⟨o, ho, hid, hgives⟩ := hsome a x hlookup
    exact ⟨o, ho, hid, _, hgives, rfl, fun _ => rfl⟩

end Lookups

/-! ### Unqualified names -/

section Unqualified

variable (h : Made builder resolveOther projections tracker first outputs m node builder')
  (hbuilder : builder.WellFormed) {o : Output T} {x : String}
include h hbuilder

lemma carried {id : ColumnId} (hlookup : builder'.outputMapping.lookup ⟨none, x⟩ = some id) :
    ∃ o ∈ first ++ outputs, o.id = id ∧ builder.Carries o.column x := by
  obtain ⟨o, ho, hid, n, hn, hname, -⟩ := h.gives_of_lookup hlookup
  have hcarries := (h.laid.carries hbuilder ho hn).1
  rw [hname] at hcarries
  exact ⟨o, ho, hid, hcarries⟩

variable {tracked : List String}
  (htracker : tracker = .track builder.allowAmbiguousOutputNames
    (tracked ++ PlanBuilder.trackedNames projections))
  (htracked : ∀ x ∈ tracked, ∃ o ∈ first, builder.Carries o.column x)
include htracker htracked

omit hbuilder in
/-- A name that one column carries is not a duplicate, unless the column is of the input. -/
lemma free_of_sole (htrackedBy : ∀ o ∈ outputs, builder.TrackedByName o.column)
    (hsole : ∀ o' ∈ first ++ outputs, builder.Carries o'.column x → o' = o) :
    o.id ∈ first.map Output.id ∨ x ∉ tracker.duplicates := by
  by_cases hfirst : o ∈ first
  · exact .inl (List.mem_map_of_mem hfirst)
  · refine .inr fun hduplicate => ?_
    rw [htracker, NameTracker.mem_duplicates, List.count_append] at hduplicate
    obtain ⟨-, hx, hcount⟩ := hduplicate
    have hbase : tracked.count x = 0 := by
      refine List.count_eq_zero.mpr fun hmem => ?_
      obtain ⟨o', ho', hcarries⟩ := htracked x hmem
      exact hfirst (hsole o' (List.mem_append_left _ ho') hcarries ▸ ho')
    have hnodup : outputs.Nodup :=
      (List.Nodup.of_map _ h.laid.nodup).sublist (List.sublist_append_right _ _)
    have hone : (PlanBuilder.trackedNames projections).count x ≤ 1 := by
      rw [trackedNames_eq h.described, List.filterMap_map]
      refine count_filterMap_le_one hnodup (a := o) fun o' ho' hname => ?_
      exact hsole o' (List.mem_append_right _ ho')
        ((tracked_iff (htrackedBy o' ho') hx).mp hname)
    omega

/-- A name that one column alone carries means this column. -/
lemma sole (hplain : ∀ o ∈ first ++ outputs, builder.Plain o.column)
    (htrackedBy : ∀ o ∈ outputs, builder.TrackedByName o.column) (ho : o ∈ first ++ outputs)
    (hcarries : builder.Carries o.column x)
    (hsole : ∀ o' ∈ first ++ outputs, builder.Carries o'.column x → o' = o) :
    builder'.outputMapping.lookup ⟨none, x⟩ = some o.id := by
  have hgives : ∀ o' ∈ first ++ outputs, ∀ n ∈ o'.placement.gives, n.name = x → o' = o :=
    fun o' ho' n hn hname => hsole o' ho' (hname ▸ (h.laid.carries hbuilder ho' hn).1)
  have hn : ∃ n ∈ o.placement.gives, n.name = x := by
    refine (h.laid.gives_of_carries hplain ho hcarries).resolve_right ?_
    rintro ⟨o', ho', hne, n, hn, hname⟩
    exact hne (congrArg Output.id (hgives o' ho' n hn hname))
  rw [h.lookup_unqualified]
  by_cases hbare : (⟨none, x⟩ : QualifiedName) ∈ o.placement.gives
  · exact .inl ((h.laid.unqualified x o.id).mpr
      ⟨o, ho, rfl, hbare, h.free_of_sole htracker htracked htrackedBy hsole⟩)
  · -- Only a qualified name is given, so unqualified access is enabled for it.
    obtain ⟨⟨- | a, name⟩, hn, rfl⟩ := hn
    · exact absurd hn hbare
    have hlookup : m.lookup ⟨some a, name⟩ = some o.id := by
      refine (h.laid.qualified _ _ (Option.some_ne_none a)).mpr ⟨⟨o, ho, rfl, hn⟩, ?_⟩
      exact fun o' ho' hgives' => congrArg Output.id (hgives o' ho' _ hgives' rfl)
    refine .inr ⟨(NameMappings.countOf_eq_one_iff m name).mpr ⟨⟨some a, name⟩, ⟨rfl, ?_⟩, ?_⟩,
      a, hlookup⟩
    · rw [hlookup]
      rfl
    · rintro ⟨- | b, name'⟩ ⟨rfl, hsome⟩
      · obtain ⟨id, hid⟩ := Option.isSome_iff_exists.mp hsome
        obtain ⟨o', ho', -, hn', -⟩ := (h.laid.unqualified _ _).mp hid
        exact absurd (hgives o' ho' _ hn' rfl ▸ hn') hbare
      · obtain ⟨id, hid⟩ := Option.isSome_iff_exists.mp hsome
        obtain ⟨⟨o', ho', -, hn'⟩, -⟩ :=
          (h.laid.qualified _ _ (Option.some_ne_none b)).mp hid
        have hsame := hgives o' ho' _ hn' rfl
        subst hsame
        obtain ⟨seen, taken, hplaces, -⟩ := h.laid.places o' ho'
        exact (gives_unique hbuilder hplaces hn' hn).2 (Option.some_ne_none b)
          (Option.some_ne_none a)

omit htracked in
/-- A name that two projections carry means no column, unless one relation alone qualifies it. -/
lemma several (hallow : builder.allowAmbiguousOutputNames = true)
    (htrackedBy : ∀ o ∈ outputs, builder.TrackedByName o.column) {o' : Output T} (ho : o ∈ outputs)
    (ho' : o' ∈ outputs) (hne : o ≠ o') (hcarries : builder.Carries o.column x)
    (hcarries' : builder.Carries o'.column x)
    (hpassed : ∀ p ∈ first, ¬ builder.Carries p.column x)
    (hqualified : ¬ ∃! a, (builder'.outputMapping.lookup ⟨some a, x⟩).isSome) :
    builder'.outputMapping.lookup ⟨none, x⟩ = none := by
  have hx := hbuilder.ne_empty hcarries
  refine Option.eq_none_iff_forall_ne_some.mpr fun id hlookup => ?_
  rcases h.lookup_unqualified.mp hlookup with hm | ⟨hcount, a, hm⟩
  · obtain ⟨p, hp, hid, hgives, hfree⟩ := (h.laid.unqualified x id).mp hm
    have hpcarries := (h.laid.carries hbuilder hp hgives).1
    rcases hfree with hfirst | hfree
    · obtain ⟨p', hp', hid'⟩ := List.mem_map.mp hfirst
      have hsame := h.laid.eq_of_id (List.mem_append_left _ hp') hp (hid'.trans hid.symm)
      exact hpassed p' hp' (hsame ▸ hpcarries)
    · refine hfree ?_
      rw [htracker, NameTracker.mem_duplicates, List.count_append,
        trackedNames_eq h.described, List.filterMap_map]
      have htwo := two_le_count_filterMap
        (f := (fun c : Column T => c.alias.or c.fieldName) ∘ Output.column) ho ho' hne
        ((tracked_iff (htrackedBy o ho) hx).mpr hcarries)
        ((tracked_iff (htrackedBy o' ho') hx).mpr hcarries')
      exact ⟨hallow, hx, by omega⟩
  · obtain ⟨k, -, hunique⟩ := (NameMappings.countOf_eq_one_iff m x).mp hcount
    have hsome : ∀ b, (builder'.outputMapping.lookup ⟨some b, x⟩).isSome → some b = k.alias :=
      fun b hb => congrArg QualifiedName.alias (hunique ⟨some b, x⟩
        ⟨rfl, (show _ = m.lookup ⟨some b, x⟩ from h.lookup_qualified (Option.some_ne_none b)) ▸ hb⟩)
    have ha : (builder'.outputMapping.lookup ⟨some a, x⟩).isSome := by
      rw [h.lookup_qualified (Option.some_ne_none a), hm]
      rfl
    exact hqualified ⟨a, ha, fun b hb => Option.some.inj ((hsome b hb).trans (hsome a ha).symm)⟩

end Unqualified

/-! ### Qualified names -/

section Qualified

variable (h : Made builder resolveOther projections tracker first outputs m node builder')
  (hbuilder : builder.WellFormed) {o : Output T} {name : QualifiedName}
include h hbuilder

lemma qualified (hname : name.alias ≠ none) {id : ColumnId}
    (hlookup : builder'.outputMapping.lookup name = some id) :
    ∃ o ∈ first ++ outputs, o.id = id ∧ builder.PassesThrough o.column name := by
  rw [h.lookup_qualified hname] at hlookup
  obtain ⟨⟨o, ho, hid, hgives⟩, -⟩ := (h.laid.qualified name id hname).mp hlookup
  exact ⟨o, ho, hid, (h.laid.carries hbuilder ho hgives).2 hname⟩

/-- A qualified name keeps a meaning unless it qualifies a copy and one more column. -/
lemma resolves (hplain : ∀ o ∈ first ++ outputs, builder.Plain o.column) (hname : name.alias ≠ none)
    (ho : o ∈ first ++ outputs) (hpass : builder.PassesThrough o.column name) :
    (builder'.outputMapping.lookup name).isSome ↔
      (∀ o' ∈ first ++ outputs, builder.PassesThrough o'.column name → ¬ o'.column.Copies name) ∨
        ∀ o' ∈ first ++ outputs, builder.PassesThrough o'.column name → o' = o := by
  have hgives : ∀ o ∈ first ++ outputs, builder.PassesThrough o.column name →
      name ∈ o.placement.gives ∨ ¬ o.column.Copies name ∧ ∃ o' ∈ first ++ outputs,
        builder.outputMapping.lookup name = some o'.id ∧ o'.id ∈ builder.outputs ∧
          name ∈ o'.placement.gives :=
    fun o ho hpass => h.laid.gives_of_passesThrough hplain ho hname hpass
  have hpasses : ∀ o ∈ first ++ outputs, name ∈ o.placement.gives →
      builder.PassesThrough o.column name :=
    fun o ho hmem => (h.laid.carries hbuilder ho hmem).2 hname
  rw [h.lookup_qualified hname, Option.isSome_iff_exists]
  constructor
  · rintro ⟨id, hlookup⟩
    obtain ⟨-, hsole⟩ := (h.laid.qualified name id hname).mp hlookup
    rw [or_iff_not_imp_left]
    intro hcopy
    push Not at hcopy
    obtain ⟨d, hd, hdpass, hdcopy⟩ := hcopy
    have hdgives : name ∈ d.placement.gives :=
      (hgives d hd hdpass).resolve_right fun hagain => hagain.1 hdcopy
    have hall : ∀ o' ∈ first ++ outputs, builder.PassesThrough o'.column name → o' = d := by
      intro e he hepass
      rcases hgives e he hepass with hegives | ⟨-, e', he', hlookup', hid', he'gives⟩
      · exact h.laid.eq_of_id he hd ((hsole e he hegives).trans (hsole d hd hdgives).symm)
      · -- The first column of the same column of the input would be the copy.
        have hsame := h.laid.eq_of_id he' hd
          ((hsole e' he' he'gives).trans (hsole d hd hdgives).symm)
        subst hsame
        obtain ⟨hexpr, halias, -⟩ := h.laid.of_id_mem he' hid'
        obtain ⟨hsome, hne⟩ := hdcopy
        rcases halias with hnone | ⟨hid, -⟩
        · exact absurd (hnone.symm.trans hsome) (Option.some_ne_none _).symm
        · have := Option.some.inj (hid.symm.trans hsome)
          exact absurd (this ▸ hexpr) hne
    exact fun o' ho' hpass' => (hall o' ho' hpass').trans (hall o ho hpass).symm
  · rintro (hcopy | hsole)
    · have horiginal : ∀ e ∈ first ++ outputs, name ∈ e.placement.gives →
          builder.outputMapping.lookup name = some e.id := by
        intro e he hegives
        obtain ⟨seen, taken, hplaces, -⟩ := h.laid.places e he
        exact lookup_of_gives hbuilder hplaces hegives hname (hcopy e he (hpasses e he hegives))
      obtain ⟨e, he, hegives⟩ : ∃ e ∈ first ++ outputs, name ∈ e.placement.gives := by
        rcases hgives o ho hpass with hogives | ⟨-, e, he, -, -, hegives⟩
        · exact ⟨o, ho, hogives⟩
        · exact ⟨e, he, hegives⟩
      refine ⟨e.id, (h.laid.qualified name _ hname).mpr ⟨⟨e, he, rfl, hegives⟩, ?_⟩⟩
      intro e' he' hegives'
      exact Option.some.inj ((horiginal e' he' hegives').symm.trans (horiginal e he hegives))
    · have hogives : name ∈ o.placement.gives := by
        rcases hgives o ho hpass with hogives | ⟨-, e, he, -, -, hegives⟩
        · exact hogives
        · exact hsole e he (hpasses e he hegives) ▸ hegives
      refine ⟨o.id, (h.laid.qualified name _ hname).mpr ⟨⟨o, ho, rfl, hogives⟩, ?_⟩⟩
      exact fun e he hegives => congrArg Output.id (hsole e he (hpasses e he hegives))

end Qualified

/-! ### Names as the user sees them -/

section Visible

variable (h : Made builder resolveOther projections tracker first outputs m node builder')
  (hbuilder : builder.WellFormed)
include h hbuilder

/-- The names of a column pass the check again. -/
lemma wellFormed : builder'.WellFormed where
  nodup := by
    rw [h.columns, h.outputNames]
    exact h.laid.nodup
  taken := h.taken
  nonempty := h.nonempty
  means name id hlookup := by
    obtain ⟨o, ho, rfl, -⟩ := h.gives_of_lookup hlookup
    rw [h.columns, h.outputNames]
    exact List.mem_map_of_mem ho
  named name id hlookup := by
    obtain ⟨o, ho, -, n, hn, hname, -⟩ := h.gives_of_lookup hlookup
    exact hname ▸ hbuilder.ne_empty (h.laid.carries hbuilder ho hn).1
  names id := by
    refine NameMappings.exists_reverseLookup.mpr fun k k' hk hk' => ?_
    obtain ⟨o, ho, hid, n, hn, hname, hsame⟩ := h.gives_of_lookup hk
    obtain ⟨o', ho', hid', n', hn', hname', hsame'⟩ := h.gives_of_lookup hk'
    have heq := h.laid.eq_of_id ho ho' (hid.trans hid'.symm)
    subst heq
    obtain ⟨seen, taken, hplaces, -⟩ := h.laid.places o ho
    obtain ⟨hbase, hunique⟩ := gives_unique hbuilder hplaces hn hn'
    have hbase' : k.name = k'.name := hname.symm.trans (hbase.trans hname')
    refine ⟨hbase', fun halias => ?_⟩
    rcases k with ⟨- | a, x⟩
    · rcases k' with ⟨- | b, y⟩
      · exact congrArg _ hbase'
      · cases halias
    · rcases k' with ⟨- | b, y⟩
      · cases halias
      · have hn := hsame (Option.some_ne_none a)
        have hn' := hsame' (Option.some_ne_none b)
        subst hn hn'
        exact hunique (Option.some_ne_none a) (Option.some_ne_none b)

omit hbuilder in
lemma userName_iff {o : Output T} (ho : o ∈ first ++ outputs) {name : String} :
    builder'.outputMapping.userName o.id = some name ↔ o.placement.userName = some name := by
  rw [h.userName_eq, h.laid.users]
  constructor
  · rintro ⟨o', ho', hid, huser⟩
    exact h.laid.eq_of_id ho' ho hid ▸ huser
  · exact fun huser => ⟨o, ho, rfl, huser⟩

/-- A column that the user did not name is shown under the base name of its names. -/
lemma outputName_eq {o : Output T} (ho : o ∈ first ++ outputs)
    (huser : o.placement.userName = none) :
    builder'.outputName o.id = .ok (pickName (builder'.outputMapping.namesOf o.id)) ∧
      ∀ n ∈ builder'.outputMapping.namesOf o.id, ∃ n' ∈ o.placement.gives, n'.name = n.name := by
  constructor
  · have hnone : builder'.outputMapping.userName o.id = none := by
      refine Option.eq_none_iff_forall_ne_some.mpr fun u hu => ?_
      rw [h.userName_iff ho, huser] at hu
      cases hu
    obtain ⟨names, hnames⟩ := (h.wellFormed hbuilder).names o.id
    rw [PlanBuilder.outputName, hnone, ← NameMappings.reverseLookup_eq hnames, hnames]
    rfl
  · intro n hn
    obtain ⟨o', ho', hid, n', hn', hname, -⟩ := h.gives_of_lookup (NameMappings.mem_namesOf.mp hn)
    exact ⟨n', h.laid.eq_of_id ho' ho hid ▸ hn', hname⟩

/-- A column that the user did not name is shown under an unqualified name that means it. -/
lemma outputName_of_lookup {o : Output T} (ho : o ∈ first ++ outputs) {x : String}
    (huser : o.placement.userName = none)
    (hlookup : builder'.outputMapping.lookup ⟨none, x⟩ = some o.id) :
    builder'.outputName o.id = .ok (some x) := by
  have hmem := NameMappings.mem_namesOf.mpr hlookup
  rw [(h.outputName_eq hbuilder ho huser).1, pickName_eq (List.ne_nil_of_mem hmem)]
  intro n hn
  exact ((h.wellFormed hbuilder).names_unique (NameMappings.mem_namesOf.mp hn) hlookup).1

/-- A column that the user did not name and that gives no name is anonymous. -/
lemma outputName_of_anonymous {o : Output T} (ho : o ∈ first ++ outputs)
    (huser : o.placement.userName = none) (hgives : o.placement.gives = []) :
    builder'.outputName o.id = .ok none := by
  obtain ⟨heq, hnames⟩ := h.outputName_eq hbuilder ho huser
  have hempty : builder'.outputMapping.namesOf o.id = [] := by
    refine List.eq_nil_iff_forall_not_mem.mpr fun n hn => ?_
    obtain ⟨n', hn', -⟩ := hnames n hn
    rw [hgives] at hn'
    cases hn'
  rw [heq, hempty]
  rfl

omit hbuilder in
lemma outputName_of_user {o : Output T} (ho : o ∈ first ++ outputs) {name : String}
    (huser : o.placement.userName = some name) : builder'.outputName o.id = .ok (some name) := by
  rw [PlanBuilder.outputName, (h.userName_iff ho).mpr huser]

variable {tracked : List String}
  (htracker : tracker = .track builder.allowAmbiguousOutputNames
    (tracked ++ PlanBuilder.trackedNames projections))
  (htracked : ∀ x ∈ tracked, ∃ o ∈ first, builder.Carries o.column x)
include htracker htracked

/-- The user sees the name of each column. -/
lemma visible (hplain : ∀ o ∈ first ++ outputs, builder.Plain o.column)
    (htrackedBy : ∀ o ∈ outputs, builder.TrackedByName o.column) {o : Output T}
    (ho : o ∈ first ++ outputs)
    (hsole : o.id ∈ builder.outputs → builder.outputMapping.userName o.id = none →
      ∀ x, builder.Carries o.column x →
        ∀ o' ∈ first ++ outputs, builder.Carries o'.column x → o' = o)
    {name : Option String} (hname : builder.VisibleName o.column name) :
    builder'.outputName o.id = .ok name := by
  obtain ⟨seen, taken, hplaces, -, htaken⟩ := h.laid.places o ho
  -- The name of a column of the input that is read, under its id or without an alias.
  have hread : ∀ {id : ColumnId}, builder.identityOf o.alias o.expr = some id →
      builder.outputName id = .ok name := by
    intro id hidentity
    obtain ⟨hexpr, hid, halias⟩ := identityOf_eq_some.mp hidentity
    unfold PlanBuilder.VisibleName at hname
    dsimp only [Output.column] at hname
    rcases halias with halias | halias
    · rw [halias] at hname
      rcases hname with ⟨id', ⟨hexpr', -⟩, heq⟩ | ⟨hnone, -⟩
      · rw [hexpr] at hexpr'
        cases hexpr'
        exact heq
      · exact absurd ⟨hexpr, hid⟩ (hnone id)
    · rw [halias] at hname
      rw [(hplain o ho id ⟨hexpr, hid⟩ halias).2, hname]
  have hoplain := hplain o ho
  rcases o with ⟨«alias», fieldName, expr, p⟩
  dsimp only [Output.id] at hplaces hread hsole ⊢
  cases hplaces with
  | empty =>
      cases hname
      exact h.outputName_of_user ho rfl
  | @identity _ _ id names halias hidentity _ hnames =>
      have hshown := hread hidentity
      obtain ⟨rfl, hid, -⟩ := identityOf_eq_some.mp hidentity
      rw [PlanBuilder.outputName_eq hnames, Except.ok.injEq] at hshown
      rcases huser : builder.outputMapping.userName id with - | u
      · rw [huser, Option.none_or] at hshown
        have hgives : ∀ n, n ∈ identityNames names «alias» ↔
            builder.outputMapping.lookup n = some id :=
          fun _ => h.laid.gives_of_plain ho hid hoplain
        simp only [← NameMappings.mem_of_reverseLookup hnames] at hgives
        rcases hempty : names with - | ⟨n, rest⟩
        · rw [← hshown, hempty]
          refine h.outputName_of_anonymous hbuilder ho huser ?_
          refine List.eq_nil_iff_forall_not_mem.mpr fun n hn => ?_
          simpa [hempty] using (hgives n).mp hn
        · have hn : n ∈ names := hempty ▸ List.mem_cons_self
          have hlookup := (NameMappings.mem_of_reverseLookup hnames n).mp hn
          have hcarries := (h.laid.carries hbuilder ho ((hgives n).mpr hn)).1
          have hmeans := h.sole hbuilder htracker htracked hplain htrackedBy ho hcarries
            (hsole hid huser n.name hcarries)
          rw [← hshown, pickName_eq (List.ne_nil_of_mem hn) fun n' hn' => (hbuilder.names_unique
            ((NameMappings.mem_of_reverseLookup hnames n').mp hn') hlookup).1]
          exact h.outputName_of_lookup hbuilder ho huser hmeans
      · rw [huser, Option.some_or] at hshown
        rw [← hshown]
        exact h.outputName_of_user ho huser
  | @again _ _ id newId names halias hidentity _ hnames hnew =>
      have hshown := hread hidentity
      rw [PlanBuilder.outputName_eq hnames, Except.ok.injEq] at hshown
      cases name with
      | none => exact h.outputName_of_anonymous hbuilder ho hshown rfl
      | some name => exact h.outputName_of_user ho hshown
  | @named «alias» _ newId names halias hidentity hnames hnew =>
      cases hname
      by_cases huser : «alias» ∈ tracker.duplicates ∨ newId ≠ «alias»
      · exact h.outputName_of_user ho (if_pos huser)
      · refine h.outputName_of_lookup hbuilder ho (if_neg huser) ?_
        rw [not_or] at huser
        exact h.lookup_unqualified.mpr (.inl ((h.laid.unqualified _ _).mpr
          ⟨_, ho, rfl, List.mem_cons_self, .inr huser.1⟩))
  | anonymous hidentity =>
      rcases hname with ⟨id, ⟨rfl, hid⟩, -⟩ | ⟨-, rfl⟩
      · rw [identityOf_eq_some.mpr ⟨rfl, hid, .inl rfl⟩] at hidentity
        cases hidentity
      · exact h.outputName_of_anonymous hbuilder ho rfl rfl

/-- **What the builder keeps.** -/
lemma keepsNames :
    KeepsNames builder builder' (first.map Output.column) (outputs.map Output.column) := by
  have hall : first.map Output.column ++ outputs.map Output.column =
      (first ++ outputs).map Output.column := List.map_append.symm
  have hids : ((first ++ outputs).map Output.column).map Column.id =
      (first ++ outputs).map Output.id := by
    rw [List.map_map]
    rfl
  -- Two outputs are one if their columns are.
  have hsame : ∀ {o o' : Output T}, o ∈ first ++ outputs → o' ∈ first ++ outputs →
      (o.column = o'.column ↔ o = o') :=
    fun ho ho' => ⟨fun heq => h.laid.eq_of_id ho ho' (congrArg Column.id heq), congrArg _⟩
  have hprojected : ∀ {o : Output T}, o ∈ outputs → o ∈ first ++ outputs :=
    fun ho => List.mem_append_right _ ho
  refine ⟨?_, ?_, h.wellFormed hbuilder, ?_, ?_, ?_, ?_, ?_, ?_⟩
  · rw [hall, hids]
    exact h.laid.nodup
  · rw [hall, hids, h.columns, h.outputNames]
  · intro name id hlookup
    obtain ⟨o, ho, hid, hcarries⟩ := h.carried hbuilder hlookup
    exact ⟨o.column, hall ▸ List.mem_map_of_mem ho, hid, hcarries⟩
  · simp only [hall, List.forall_mem_map]
    intro hplain htrackedBy o ho name hcarries hsole
    exact h.sole hbuilder htracker htracked hplain htrackedBy ho hcarries
      fun o' ho' hcarries' => (hsame ho' ho).mp (hsole o' ho' hcarries')
  · simp only [List.forall_mem_map]
    intro hallow htrackedBy o ho o' ho' hne name hcarries hcarries' hpassed hqualified
    exact h.several hbuilder htracker hallow htrackedBy ho ho'
      (fun heq => hne (congrArg _ heq)) hcarries hcarries' hpassed hqualified
  · intro name id hname hlookup
    obtain ⟨o, ho, hid, hpass⟩ := h.qualified hbuilder hname hlookup
    exact ⟨o.column, hall ▸ List.mem_map_of_mem ho, hid, hpass⟩
  · simp only [hall, List.forall_mem_map]
    intro hplain name hname o ho hpass
    rw [h.resolves hbuilder hplain hname ho hpass]
    refine or_congr_right (forall₂_congr fun o' ho' => imp_congr_right fun _ => ?_)
    exact (hsame ho' ho).symm
  · simp only [hall, List.forall_mem_map]
    intro hplain htrackedBy o ho hsole name hname
    exact h.visible hbuilder htracker htracked hplain htrackedBy ho
      (fun hid huser x hcarries o' ho' hcarries' =>
        (hsame ho' ho).mp (hsole hid huser x hcarries o' ho' hcarries')) hname

end Visible

end Made

end Verax.Projections
