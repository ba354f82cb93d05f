import Verax.Projections.Lookups

/-!
# Projections that are accepted

A run over projections fails if an expression does not resolve, and if a name is added twice: a user
may ask that names of several columns are dropped instead.

* `Accepted`: what a list of columns has to satisfy.
* `exists_project`, `exists_withColumns`: the projections of an accepted list succeed.
-/

namespace Verax.Projections

open Names (NameMappings QualifiedName ColumnId NameError)
open Lib.Outcome Lib.Dictionary

variable {E T : Type}

/-! ### Steps that do not fail -/

section Steps

variable {tracker : NameTracker} {base m : NameMappings} {pairs : List (QualifiedName × ColumnId)}
  {name : QualifiedName} {id : ColumnId}

lemma exists_add (id : ColumnId) (h : m.lookup name = none) : ∃ m', m.add name id = .ok m' := by
  rw [NameMappings.add, if_neg (AList.lookup_eq_none.mp h)]
  exact ⟨_, rfl⟩

lemma exists_addUserName (name : String) (h : m.userName id = none) :
    ∃ m', m.addUserName id name = .ok m' := by
  rw [NameMappings.addUserName, if_neg (AList.lookup_eq_none.mp h)]
  exact ⟨_, rfl⟩

/-- A name that is not a duplicate was not added before. -/
def Unused (tracker : NameTracker) (base : NameMappings) (pairs : List (QualifiedName × ColumnId))
    (x : String) : Prop :=
  x ∉ tracker.duplicates → base.lookup ⟨none, x⟩ = none ∧ ∀ id, (⟨none, x⟩, id) ∉ pairs

lemma Tracked.lookup_eq_none (h : Tracked tracker base pairs m) {x : String}
    (hnew : Unused tracker base pairs x) (hx : x ∉ tracker.duplicates) :
    m.lookup ⟨none, x⟩ = none := by
  obtain ⟨hbase, hpairs⟩ := hnew hx
  refine Option.eq_none_iff_forall_ne_some.mpr fun id hid => ?_
  rcases (h.unqualified x id).mp hid with hfalse | ⟨-, hfalse⟩
  · rw [hbase] at hfalse
    cases hfalse
  · exact hpairs id hfalse

lemma Tracked.exists_add (h : Tracked tracker base pairs m) (name : QualifiedName) (id : ColumnId)
    (hnew : name.alias = none → Unused tracker base pairs name.name) :
    ∃ m', tracker.add m name id = .ok m' := by
  rcases name with ⟨«alias», x⟩
  unfold NameTracker.add
  split
  · next halias =>
    dsimp only at halias
    subst halias
    split
    · exact ⟨_, rfl⟩
    · next hx => exact Projections.exists_add id (h.lookup_eq_none (hnew rfl) hx)
  · unfold NameTracker.addQualified
    split
    · exact ⟨_, rfl⟩
    · next hnone => exact Projections.exists_add id hnone

lemma Tracked.exists_foldlM (id : ColumnId) : ∀ {names : List QualifiedName}
    {pairs : List (QualifiedName × ColumnId)} {m : NameMappings}, Tracked tracker base pairs m →
      names.Nodup → (∀ x, ⟨none, x⟩ ∈ names → Unused tracker base pairs x) →
        ∃ m', names.foldlM (fun m name => tracker.add m name id) m = .ok m'
  | [], pairs, m, _, _, _ => ⟨m, rfl⟩
  | name :: names, pairs, m, h, hnodup, hnew => by
      obtain ⟨hname, hnodup⟩ := List.nodup_cons.mp hnodup
      obtain ⟨m₁, hadd⟩ := h.exists_add name id fun halias =>
        hnew name.name (by rw [← halias]; exact List.mem_cons_self)
      obtain ⟨m', hm'⟩ := (h.add hadd).exists_foldlM id hnodup fun x hx hfree => by
        obtain ⟨hbase, hpairs⟩ := hnew x (List.mem_cons_of_mem name hx) hfree
        refine ⟨hbase, fun id' hid' => ?_⟩
        rcases List.mem_append.mp hid' with hid' | hid'
        · exact hpairs id' hid'
        · rw [List.mem_singleton, Prod.mk.injEq] at hid'
          exact hname (hid'.1 ▸ hx)
      exact ⟨m', foldlM_cons_eq_ok.mpr ⟨m₁, hadd, hm'⟩⟩

lemma Tracked.exists_addNamed (h : Tracked tracker base pairs m) {x : String}
    (hnew : Unused tracker base pairs x) (huser : m.userName id = none) :
    ∃ m', tracker.addNamed m x id = .ok m' := by
  unfold NameTracker.addNamed
  split
  · exact exists_addUserName x huser
  · next hx =>
    obtain ⟨m₁, hadd⟩ := Projections.exists_add id (h.lookup_eq_none hnew hx)
    have huser₁ : m₁.userName id = none := by
      rw [NameMappings.userName, userNames_of_add hadd]
      exact huser
    rw [hadd]
    show ∃ m', (if id ≠ x then m₁.addUserName id x else .ok m₁) = .ok m'
    split
    · exact exists_addUserName x huser₁
    · exact ⟨_, rfl⟩

end Steps

/-! ### One projection -/

/-- The users' names of a mapping are those of columns passed through. -/
def NamesPassed (base : NameMappings) (passed : List ColumnId) : Prop :=
  ∀ id name, base.userName id = some name → id ∈ passed

section Place

variable {builder : PlanBuilder} {tracker : NameTracker} {base : NameMappings}
  {passed : List ColumnId} {placements : List Placement} {placed : Placed T}

/-- A column that is not there yet has no user name. -/
lemma PlacedInv.userName_eq_none (h : PlacedInv builder tracker base passed placements placed)
    (hbase : NamesPassed base passed) {id : ColumnId} (hid : id ∉ placed.outputNames) :
    placed.mappings.userName id = none := by
  refine Option.eq_none_iff_forall_ne_some.mpr fun name hname => hid ?_
  rw [h.ids, List.mem_append]
  rcases (h.users id name).mp hname with hbase' | ⟨p, hp, rfl, -⟩
  · exact .inl (hbase id name hbase')
  · exact .inr (List.mem_map_of_mem hp)

/-- A hint gives a column that is not there yet. -/
lemma PlacedInv.exists_newName (h : PlacedInv builder tracker base passed placements placed)
    (hbase : NamesPassed base passed) {hint : String} (hhint : hint ≠ "") :
    ∃ id allocator, placed.nameAllocator.newName hint = .ok (id, allocator) ∧
      placed.mappings.userName id = none := by
  obtain ⟨id, nextId, heq, hnew, -⟩ := placed.nameAllocator.newName_spec hhint
  exact ⟨id, _, heq, h.userName_eq_none hbase fun hid => hnew (h.taken id (.inl hid))⟩

lemma PlacedInv.exists_placeUnnamed (h : PlacedInv builder tracker base passed placements placed)
    (hbase : NamesPassed base passed) {hint : String} (hhint : hint ≠ "")
    (userName : Option String) :
    ∃ placed', PlanBuilder.placeUnnamed hint userName placed = .ok placed' := by
  obtain ⟨id, allocator, hname, huser⟩ := h.exists_newName hbase hhint
  cases userName with
  | none => exact ⟨_, bind_eq_ok.mpr ⟨_, hname, rfl⟩⟩
  | some name =>
      obtain ⟨m, hm⟩ := exists_addUserName name huser
      exact ⟨_, bind_eq_ok.mpr ⟨_, hname, bind_eq_ok.mpr ⟨m, liftNames_eq_ok.mpr hm, rfl⟩⟩⟩

lemma PlacedInv.exists_placeNamed (h : PlacedInv builder tracker base passed placements placed)
    (hbase : NamesPassed base passed) {inputNames : List QualifiedName} {«alias» : String}
    (halias : «alias» ≠ "") (hnodup : inputNames.Nodup)
    (hnew : Unused tracker base (pairsOf placements) «alias») :
    ∃ placed', PlanBuilder.placeNamed tracker inputNames «alias» placed = .ok placed' := by
  obtain ⟨id, allocator, hname, huser⟩ := h.exists_newName hbase halias
  obtain ⟨m₁, hm₁⟩ := h.tracked.exists_addNamed hnew huser
  have hkept : (keptNames inputNames «alias»).Nodup := by
    unfold keptNames
    split
    · exact List.nodup_nil
    · exact hnodup.filter _
  obtain ⟨m₂, hm₂⟩ := (h.tracked.addNamed hm₁).exists_foldlM id hkept fun x hx => by
    have hfalse := (mem_keptNames.mp hx).2.1
    cases hfalse
  exact ⟨_, bind_eq_ok.mpr ⟨_, hname, bind_eq_ok.mpr ⟨m₁, liftNames_eq_ok.mpr hm₁,
    bind_eq_ok.mpr ⟨m₂, liftNames_eq_ok.mpr hm₂, rfl⟩⟩⟩⟩

lemma PlacedInv.exists_placeIdentity (h : PlacedInv builder tracker base passed placements placed)
    (hbase : NamesPassed base passed) {inputNames : List QualifiedName} {«alias» : Option String}
    {id : ColumnId} (hid : id ∈ builder.outputs) (hid' : id ≠ "") (hnodup : inputNames.Nodup)
    (hnew : ∀ x, ⟨none, x⟩ ∈ identityNames inputNames «alias» →
      Unused tracker base (pairsOf placements) x) :
    ∃ placed', builder.placeIdentity tracker inputNames «alias» id placed = .ok placed' := by
  unfold PlanBuilder.placeIdentity
  split
  · obtain ⟨newId, allocator, hname, huser⟩ := h.exists_newName hbase hid'
    rcases (builder.outputMapping.userName id).or (pickName inputNames) with - | name
    · exact ⟨_, bind_eq_ok.mpr ⟨_, hname, rfl⟩⟩
    · obtain ⟨m, hm⟩ := exists_addUserName name huser
      exact ⟨_, bind_eq_ok.mpr ⟨_, hname, bind_eq_ok.mpr ⟨m, liftNames_eq_ok.mpr hm, rfl⟩⟩⟩
  · next hseen =>
    have hnames : (identityNames inputNames «alias»).Nodup := by
      unfold identityNames
      split
      · split
        · exact List.nodup_singleton _
        · exact hnodup
      · exact hnodup
    obtain ⟨m₁, hm₁⟩ := h.tracked.exists_foldlM id hnames hnew
    have huser : m₁.userName id = none := by
      rw [NameMappings.userName, NameTracker.userNames_of_foldlM hm₁]
      exact h.userName_eq_none hbase fun hmem => hseen ((h.seen id hid).mpr hmem)
    have hcopy : ∃ m₂, m₁.copyUserName id builder.outputMapping = .ok m₂ := by
      unfold NameMappings.copyUserName
      split
      · next name _ => exact exists_addUserName name huser
      · exact ⟨_, rfl⟩
    obtain ⟨m₂, hm₂⟩ := hcopy
    exact ⟨_, bind_eq_ok.mpr ⟨m₁, liftNames_eq_ok.mpr hm₁,
      bind_eq_ok.mpr ⟨m₂, liftNames_eq_ok.mpr hm₂, rfl⟩⟩⟩

/-- A column is placed if its names were not added before. -/
lemma PlacedInv.exists_place (h : PlacedInv builder tracker base passed placements placed)
    (hbuilder : builder.WellFormed) (hbase : NamesPassed base passed) {c : Column T}
    (hempty : c.alias = some "" → builder.allowAmbiguousOutputNames = true)
    (hid : ∀ id, c.expr = .inputReference id → id ≠ "")
    (hnew : ∀ x, builder.Carries c x → Unused tracker base (pairsOf placements) x) :
    ∃ placed', builder.place tracker c.alias c.expr placed = .ok placed' := by
  rcases c with ⟨«alias», fieldName, expr, id⟩
  dsimp only at hempty hid ⊢
  have hhint : kExprHint ≠ "" := by decide
  unfold PlanBuilder.place
  split
  · next halias =>
    rw [if_pos (hempty halias)]
    refine h.exists_placeUnnamed hbase ?_ _
    cases expr with
    | inputReference id => exact hid id rfl
    | other => exact hhint
  next halias =>
  have hnames : ∃ names, builder.inputNames expr = .ok names ∧ names.Nodup := by
    cases expr with
    | other => exact ⟨[], rfl, List.nodup_nil⟩
    | inputReference id =>
        obtain ⟨names, hnames⟩ := hbuilder.names id
        refine ⟨names, liftNames_eq_ok.mpr hnames, ?_⟩
        rw [NameMappings.reverseLookup_eq hnames]
        exact NameMappings.nodup_namesOf _ _
  obtain ⟨names, hnames, hnodup⟩ := hnames
  simp only [bind_eq_ok]
  rcases hidentity : builder.identityOf «alias» expr with - | id'
  · cases «alias» with
    | none =>
        obtain ⟨placed', hplaced⟩ := h.exists_placeUnnamed hbase hhint none
        exact ⟨placed', names, hnames, hplaced⟩
    | some name =>
        have hname : name ≠ "" := fun heq => halias (congrArg some heq)
        obtain ⟨placed', hplaced⟩ :=
          h.exists_placeNamed hbase hname hnodup (hnew name ⟨hname, rfl⟩)
        exact ⟨placed', names, hnames, hplaced⟩
  · obtain ⟨rfl, hmem, -⟩ := identityOf_eq_some.mp hidentity
    have hplaces : Places builder tracker [] [] «alias» (.inputReference id' : TypedExpr T)
        ⟨id', identityNames names «alias», builder.outputMapping.userName id'⟩ :=
      .identity halias hidentity List.not_mem_nil (liftNames_eq_ok.mp hnames)
    obtain ⟨placed', hplaced⟩ := h.exists_placeIdentity hbase hmem (hid id' rfl) hnodup
      fun x hx => hnew x (carries_of_gives (o := ⟨«alias», fieldName, _, _⟩) hbuilder hplaces hx).1
    exact ⟨placed', names, hnames, hplaced⟩

end Place

/-! ### A run over projections -/

/-- **What a list of columns has to satisfy to be accepted**, after columns passed through: an alias
may be empty, and several columns may carry a name, only if ambiguous names are allowed. -/
structure Accepted (builder : PlanBuilder) (passed projected : List (Column T)) : Prop where
  aliased : ∀ c ∈ projected, c.alias = some "" → builder.allowAmbiguousOutputNames = true
  named : ∀ c ∈ projected, ∀ id, c.expr = .inputReference id → id ≠ ""
  distinct : (builder.allowAmbiguousOutputNames = true ∧ ∀ c ∈ projected, builder.TrackedByName c) ∨
    (passed ++ projected).Pairwise fun c d =>
      ∀ name, builder.Carries c name → ¬ builder.Carries d name

section Run

variable {builder : PlanBuilder} {resolveOther : UntypedExpr E → Except BuilderError (TypedExpr T)}
  {tracker : NameTracker} {base : NameMappings} {passed : List ColumnId}

/-- A run over columns whose names were not added before. -/
lemma exists_foldlM (hbuilder : builder.WellFormed) (hbase : NamesPassed base passed) :
    ∀ {projections : List (Projection E)} {columns : List (Column T)} {placements : List Placement}
      {placed : Placed T}, List.Forall₂ (builder.Describes resolveOther) projections columns →
      PlacedInv builder tracker base passed placements placed →
      (∀ c ∈ columns, (c.alias = some "" → builder.allowAmbiguousOutputNames = true) ∧
        ∀ id, c.expr = .inputReference id → id ≠ "") →
      (∀ c ∈ columns, ∀ x, builder.Carries c x → Unused tracker base (pairsOf placements) x) →
      (columns.Pairwise fun c d => ∀ x, builder.Carries c x → builder.Carries d x →
        x ∈ tracker.duplicates) →
      ∃ placed', projections.foldlM (builder.resolveProjection resolveOther tracker) placed =
        .ok placed'
  | [], _, _, placed, .nil, _, _, _, _ => ⟨placed, rfl⟩
  | p :: _, c :: columns, placements, placed, .cons hp hrest, h, hok, hnew, hpairwise => by
      obtain ⟨halias, -, hexpr⟩ := hp
      obtain ⟨hempty, hid⟩ := hok c List.mem_cons_self
      obtain ⟨placed₁, hplace⟩ :=
        h.exists_place hbuilder hbase hempty hid (hnew c List.mem_cons_self)
      obtain ⟨placement, hplaces, hinv⟩ := place_spec h hplace
      have hinv' : PlacedInv builder tracker base passed (placements ++ [placement])
          { placed₁ with exprs := placed₁.exprs ++ [c.expr] } :=
        ⟨hinv.ids, hinv.nodup, hinv.taken, hinv.nonempty, hinv.seen, hinv.tracked, hinv.users⟩
      obtain ⟨hfirst, hpairwise⟩ := List.pairwise_cons.mp hpairwise
      have hnext : ∀ d ∈ columns, ∀ x, builder.Carries d x →
          Unused tracker base (pairsOf (placements ++ [placement])) x := by
        intro d hd x hx hfree
        obtain ⟨hnone, hpairs⟩ := hnew d (List.mem_cons_of_mem c hd) x hx hfree
        refine ⟨hnone, fun id hmem => ?_⟩
        obtain ⟨q, hq, -, hgives⟩ := mem_pairsOf.mp hmem
        rcases List.mem_append.mp hq with hq | hq
        · exact hpairs q.id (mem_pairsOf.mpr ⟨q, hq, rfl, hgives⟩)
        · rw [List.mem_singleton] at hq
          subst hq
          have hcarries := (carries_of_gives (o := ⟨c.alias, c.fieldName, c.expr, q⟩) hbuilder
            hplaces hgives).1
          exact hfree (hfirst d hd x hcarries hx)
      obtain ⟨placed', hrun⟩ := exists_foldlM hbuilder hbase hrest hinv'
        (fun d hd => hok d (List.mem_cons_of_mem c hd)) hnext hpairwise
      refine ⟨placed', foldlM_cons_eq_ok.mpr ⟨_, ?_, hrun⟩⟩
      rw [PlanBuilder.resolveProjection, ← halias]
      exact bind_eq_ok.mpr ⟨_, hexpr, bind_eq_ok.mpr ⟨_, hplace, rfl⟩⟩

lemma mem_uniqueNames {m : NameMappings} {x : String} :
    x ∈ PlanBuilder.uniqueNames m ↔ ∃ id, m.lookup ⟨none, x⟩ = some id := by
  simp only [PlanBuilder.uniqueNames, List.mem_map, List.mem_filter]
  constructor
  · rintro ⟨⟨⟨- | a, y⟩, id⟩, ⟨hmem, hbare⟩, rfl⟩
    · exact ⟨id, mem_entries_iff.mp hmem⟩
    · cases hbare
  · rintro ⟨id, hid⟩
    exact ⟨⟨⟨none, x⟩, id⟩, ⟨mem_entries_iff.mpr hid, rfl⟩, rfl⟩

/-- A name that several accepted columns carry is a duplicate. -/
lemma Accepted.unused {first projected : List (Column T)} (h : Accepted builder first projected)
    (hbuilder : builder.WellFormed) {projections : List (Projection E)}
    (hprojections : List.Forall₂ (builder.Describes resolveOther) projections projected)
    (hbase : ∀ x id, base.lookup ⟨none, x⟩ = some id → ∃ c ∈ first, builder.Carries c x)
    (htracker : tracker = .track builder.allowAmbiguousOutputNames
      (PlanBuilder.uniqueNames base ++ PlanBuilder.trackedNames projections)) :
    (∀ c ∈ projected, ∀ x, builder.Carries c x → Unused tracker base [] x) ∧
      projected.Pairwise fun c d => ∀ x, builder.Carries c x → builder.Carries d x →
        x ∈ tracker.duplicates := by
  have hduplicate : ∀ x, x ∈ tracker.duplicates ↔
      builder.allowAmbiguousOutputNames = true ∧ x ≠ "" ∧
        2 ≤ (PlanBuilder.uniqueNames base).count x +
          (projected.filterMap fun c => c.alias.or c.fieldName).count x := by
    intro x
    rw [htracker, NameTracker.mem_duplicates, List.count_append, trackedNames_eq hprojections]
  rcases h.distinct with ⟨hallow, htrackedBy⟩ | hdistinct
  · have htracked : ∀ c ∈ projected, ∀ x, builder.Carries c x → c.alias.or c.fieldName = some x :=
      fun c hc x hcarries =>
        (tracked_iff (htrackedBy c hc) (hbuilder.ne_empty hcarries)).mpr hcarries
    refine ⟨fun c hc x hcarries hfree => ⟨?_, fun _ => List.not_mem_nil⟩, ?_⟩
    · refine Option.eq_none_iff_forall_ne_some.mpr fun id hid => hfree ?_
      have hbase' : 0 < (PlanBuilder.uniqueNames base).count x :=
        List.count_pos_iff.mpr (mem_uniqueNames.mpr ⟨id, hid⟩)
      have hprojected : 0 < (projected.filterMap fun c => c.alias.or c.fieldName).count x :=
        List.count_pos_iff.mpr (List.mem_filterMap.mpr ⟨c, hc, htracked c hc x hcarries⟩)
      exact (hduplicate x).mpr ⟨hallow, hbuilder.ne_empty hcarries, by omega⟩
    · refine List.pairwise_iff_forall_sublist.mpr fun {c d} hsub x hcarries hcarries' => ?_
      have htwo := List.pairwise_iff_forall_sublist.mp
        (pairwise_two_le_count (f := fun c : Column T => c.alias.or c.fieldName) (b := x)) hsub
        (htracked c (hsub.subset List.mem_cons_self) x hcarries)
        (htracked d (hsub.subset (List.mem_cons_of_mem c List.mem_cons_self)) x hcarries')
      exact (hduplicate x).mpr ⟨hallow, hbuilder.ne_empty hcarries, by omega⟩
  · obtain ⟨-, hprojected, hfirst⟩ := List.pairwise_append.mp hdistinct
    refine ⟨fun c hc x hcarries _ => ⟨?_, fun _ => List.not_mem_nil⟩, ?_⟩
    · refine Option.eq_none_iff_forall_ne_some.mpr fun id hid => ?_
      obtain ⟨d, hd, hcarries'⟩ := hbase x id hid
      exact hfirst d hd c hc x hcarries' hcarries
    · exact hprojected.imp fun hnot x hcarries hcarries' => absurd hcarries' (hnot x hcarries)

lemma exists_finish (builder : PlanBuilder) (placed : Placed T) :
    ∃ result, builder.finish placed = .ok result := by
  obtain ⟨m, hm⟩ := NameMappings.exists_enableUnqualifiedAccess placed.mappings
  exact ⟨_, bind_eq_ok.mpr ⟨m, liftNames_eq_ok.mpr hm, rfl⟩⟩

/-- Accepted columns are placed, after columns passed through. -/
lemma exists_resolveProjections (base : NameMappings) (hbuilder : builder.WellFormed)
    {projections : List (Projection E)} {first projected : List (Column T)}
    (hprojections : List.Forall₂ (builder.Describes resolveOther) projections projected)
    (h : Accepted builder first projected) (hnodup : passed.Nodup)
    (hpassed : ∀ id ∈ passed, id ∈ builder.outputs) (hambiguous : base.ambiguousNames = [])
    (husers : NamesPassed base passed)
    (hbase : ∀ x id, base.lookup ⟨none, x⟩ = some id → ∃ c ∈ first, builder.Carries c x)
    (exprs : List (TypedExpr T)) : ∃ placed, builder.resolveProjections resolveOther projections
      ⟨passed, exprs, base, passed, builder.nameAllocator⟩ = .ok placed := by
  obtain ⟨hunused, hpairwise⟩ := h.unused hbuilder hprojections hbase rfl
  exact exists_foldlM hbuilder husers hprojections (.start hbuilder hnodup hpassed hambiguous exprs)
    (fun c hc => ⟨h.aliased c hc, h.named c hc⟩) hunused hpairwise

/-- Accepted projections succeed alone. -/
lemma exists_project (hbuilder : builder.WellFormed) {projections : List (Projection E)}
    {projected : List (Column T)}
    (hprojections : List.Forall₂ (builder.Describes resolveOther) projections projected)
    (h : Accepted builder [] projected) :
    ∃ result, builder.project resolveOther projections = .ok result := by
  obtain ⟨placed, hplaced⟩ := exists_resolveProjections {} hbuilder hprojections h
    List.nodup_nil (fun _ hid => absurd hid List.not_mem_nil) rfl (fun _ _ hname => nomatch hname)
    (fun _ _ hid => nomatch hid) []
  obtain ⟨result, hresult⟩ := exists_finish builder placed
  exact ⟨result, bind_eq_ok.mpr ⟨placed, hplaced, hresult⟩⟩

end Run

/-! ### The columns of the input -/

section Kept

variable {builder : PlanBuilder}

/-- The names of a column are kept if they are not there yet. -/
lemma exists_keepNames (hbuilder : builder.WellFormed) {m : NameMappings} {id : ColumnId}
    (hlookup : ∀ n, builder.outputMapping.lookup n = some id → m.lookup n = none)
    (huser : m.userName id = none) :
    ∃ m', Names.PlanBuilder.keepNames builder.outputMapping m id = .ok m' := by
  obtain ⟨names, hnames⟩ := hbuilder.names id
  have hmem := NameMappings.mem_of_reverseLookup hnames
  obtain ⟨m₁, hm₁⟩ := NameMappings.exists_foldlM_add (fun n => n) (fun _ => id) names m (by
      rw [List.map_id', NameMappings.reverseLookup_eq hnames]
      exact NameMappings.nodup_namesOf _ _) fun n hn => hlookup n ((hmem n).mp hn)
  have huser₁ : m₁.userName id = none := by
    rw [NameMappings.userName, userNames_of_foldlM_add hm₁]
    exact huser
  have hcopy : ∃ m₂, m₁.copyUserName id builder.outputMapping = .ok m₂ := by
    unfold NameMappings.copyUserName
    split
    · next name _ => exact exists_addUserName name huser₁
    · exact ⟨_, rfl⟩
  obtain ⟨m₂, hm₂⟩ := hcopy
  exact ⟨m₂, bind_eq_ok.mpr ⟨names, hnames, bind_eq_ok.mpr ⟨m₁, hm₁, hm₂⟩⟩⟩

lemma exists_foldlM_keepNames (hbuilder : builder.WellFormed) : ∀ {ids : List ColumnId}
    {m : NameMappings}, ids.Nodup → m.ambiguousNames = [] →
      (∀ id ∈ ids, (∀ n, builder.outputMapping.lookup n = some id → m.lookup n = none) ∧
        m.userName id = none) →
      ∃ m', ids.foldlM (Names.PlanBuilder.keepNames builder.outputMapping) m = .ok m'
  | [], m, _, _, _ => ⟨m, rfl⟩
  | id :: ids, m, hnodup, hambiguous, hnew => by
      obtain ⟨hid, hnodup⟩ := List.nodup_cons.mp hnodup
      obtain ⟨hlookup, huser⟩ := hnew id List.mem_cons_self
      obtain ⟨m₁, hm₁⟩ := exists_keepNames hbuilder hlookup huser
      obtain ⟨hambiguous₁, -, hlookup₁⟩ := Names.JoinTree.lookup_of_keepNames hambiguous hm₁
      have hnext : ∀ i ∈ ids, (∀ n, builder.outputMapping.lookup n = some i → m₁.lookup n = none) ∧
          m₁.userName i = none := by
        intro i hi
        obtain ⟨hlookup', huser'⟩ := hnew i (List.mem_cons_of_mem id hi)
        refine ⟨fun n hn => Option.eq_none_iff_forall_ne_some.mpr fun i' hi' => ?_,
          Option.eq_none_iff_forall_ne_some.mpr fun name hname => ?_⟩
        · rcases (hlookup₁ n i').mp hi' with hm | ⟨rfl, hsource⟩
          · rw [hlookup' n hn] at hm
            cases hm
          · exact hid (Option.some.inj (hn.symm.trans hsource) ▸ hi)
        · rcases (userName_of_keepNames hm₁ i name).mp hname with hm | ⟨rfl, -⟩
          · rw [huser'] at hm
            cases hm
          · exact hid hi
      obtain ⟨m', hm'⟩ := exists_foldlM_keepNames hbuilder hnodup hambiguous₁ hnext
      exact ⟨m', foldlM_cons_eq_ok.mpr ⟨m₁, hm₁, hm'⟩⟩

end Kept

/-- The columns of the input, passed through.
Source: `PlanBuilder.cpp` `with`, loop over `inputType`. -/
def passedColumns (builder : PlanBuilder) : List (Column T) :=
  builder.outputs.map fun id => ⟨none, none, .inputReference id, id⟩

/-- Accepted projections succeed after the columns of the input. -/
lemma exists_withColumns {builder : PlanBuilder}
    {resolveOther : UntypedExpr E → Except BuilderError (TypedExpr T)}
    (hbuilder : builder.WellFormed) {projections : List (Projection E)}
    {projected : List (Column T)}
    (hprojections : List.Forall₂ (builder.Describes resolveOther) projections projected)
    (h : Accepted builder (passedColumns builder) projected) :
    ∃ result, builder.withColumns resolveOther projections = .ok result := by
  obtain ⟨base, hbase⟩ := exists_foldlM_keepNames hbuilder (m := {}) hbuilder.nodup rfl
    fun _ _ => ⟨fun _ _ => rfl, rfl⟩
  obtain ⟨hambiguous, -, hlookup⟩ := Names.JoinTree.lookup_of_foldlM_keepNames _ _ _ _ rfl hbase
  have husers : NamesPassed base builder.outputs := by
    intro id name hname
    rcases (userName_of_foldlM_keepNames _ _ _ _ hbase id name).mp hname with hfalse | ⟨hid, -⟩
    · cases hfalse
    · exact hid
  have hcarries : ∀ x id, base.lookup ⟨none, x⟩ = some id →
      ∃ c ∈ (passedColumns builder : List (Column T)), builder.Carries c x := by
    intro x id hx
    rcases (hlookup _ _).mp hx with hfalse | ⟨hid, hsource⟩
    · cases hfalse
    · exact ⟨_, List.mem_map_of_mem hid, id, ⟨rfl, hid⟩, _, hsource, rfl⟩
  obtain ⟨placed, hplaced⟩ := exists_resolveProjections base hbuilder hprojections h hbuilder.nodup
    (fun _ hid => hid) hambiguous husers hcarries (builder.outputs.map .inputReference)
  obtain ⟨result, hresult⟩ := exists_finish builder placed
  exact ⟨result, bind_eq_ok.mpr ⟨base, liftNames_eq_ok.mpr hbase,
    bind_eq_ok.mpr ⟨placed, hplaced, hresult⟩⟩⟩

end Verax.Projections
