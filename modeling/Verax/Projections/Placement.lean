import Verax.Projections.Tracking

/-!
# Where the columns of a projection go

What the builder does for each projection: the column's id, the names that are added for it and the
name that the user gave it.

* `Placement`, `Places`: the column of one projection.
* `PlacedInv`: what holds after some projections; `place_spec`: one more.
-/

namespace Verax.Projections

open Names (NameMappings QualifiedName ColumnId NameError)
open Lib.Outcome

variable {E T : Type}

/-! ### Steps that succeed -/

lemma liftNames_eq_ok {α : Type} {step : Except NameError α} {a : α} :
    liftNames step = .ok a ↔ step = .ok a := by
  cases step with
  | error e => simp [liftNames, Except.mapError]
  | ok b => simp [liftNames, Except.mapError]

lemma NameAllocator.newName_ok {allocator allocator' : NameAllocator} {hint : String}
    {id : ColumnId} (h : allocator.newName hint = .ok (id, allocator')) :
    id ∉ allocator.names ∧ id ≠ "" ∧ allocator'.names = id :: allocator.names := by
  by_cases hhint : hint = ""
  · rw [newName, if_pos hhint] at h
    cases h
  · obtain ⟨name, nextId, heq, hnew, hname⟩ := allocator.newName_spec hhint
    rw [heq] at h
    cases h
    exact ⟨hnew, hname, rfl⟩

section UserNames

variable {m m' : NameMappings} {name : QualifiedName} {id : ColumnId}

lemma userNames_of_add (h : m.add name id = .ok m') : m'.userNames = m.userNames := by
  unfold NameMappings.add at h
  split at h
  · cases h
  · cases h
    unfold NameMappings.insert
    split <;> rfl

lemma userNames_of_foldlM_add {α : Type} {name : α → QualifiedName} {id : α → ColumnId} :
    ∀ {l : List α} {m m' : NameMappings}, l.foldlM (fun m a => m.add (name a) (id a)) m = .ok m' →
      m'.userNames = m.userNames
  | [], m, m', h => by
      cases h
      rfl
  | a :: l, m, m', h => by
      obtain ⟨m₁, hadd, h⟩ := foldlM_cons_eq_ok.mp h
      exact (userNames_of_foldlM_add h).trans (userNames_of_add hadd)

lemma NameTracker.userNames_of_add {tracker : NameTracker} (h : tracker.add m name id = .ok m') :
    m'.userNames = m.userNames := by
  unfold NameTracker.add at h
  split at h
  · split at h
    · cases h
      rfl
    · exact Projections.userNames_of_add h
  · unfold NameTracker.addQualified at h
    split at h
    · cases h
      split <;> rfl
    · exact Projections.userNames_of_add h

lemma NameTracker.userNames_of_foldlM {tracker : NameTracker} : ∀ {names : List QualifiedName}
    {m : NameMappings}, names.foldlM (fun m name => tracker.add m name id) m = .ok m' →
      m'.userNames = m.userNames
  | [], m, h => by
      cases h
      rfl
  | name :: names, m, h => by
      obtain ⟨m₁, hadd, h⟩ := foldlM_cons_eq_ok.mp h
      exact (userNames_of_foldlM h).trans (tracker.userNames_of_add hadd)

/-- A user name is recorded for a column that has none. -/
lemma userName_of_addUserName {name : String} (h : m.addUserName id name = .ok m') (id' : ColumnId)
    (name' : String) : m'.userName id' = some name' ↔
      m.userName id' = some name' ∨ id = id' ∧ name = name' := by
  unfold NameMappings.addUserName at h
  split at h
  · cases h
  · next hnew =>
    cases h
    have hnone : m.userNames.lookup id = none := AList.lookup_eq_none.mpr hnew
    show (m.userNames.insert id name).lookup id' = some name' ↔
      m.userNames.lookup id' = some name' ∨ _
    by_cases hid : id = id'
    · subst hid
      simp [AList.lookup_insert, hnone]
    · rw [AList.lookup_insert_ne (Ne.symm hid)]
      simp [hid]

lemma userName_of_addNamed {tracker : NameTracker} {«alias» : String}
    (h : tracker.addNamed m «alias» id = .ok m') (id' : ColumnId) (name' : String) :
    m'.userName id' = some name' ↔ m.userName id' = some name' ∨
      id = id' ∧ (if «alias» ∈ tracker.duplicates ∨ id ≠ «alias» then some «alias» else none) =
        some name' := by
  unfold NameTracker.addNamed at h
  split at h
  · next hduplicate =>
    rw [userName_of_addUserName h, if_pos (.inl hduplicate)]
    simp
  · next hduplicate =>
    obtain ⟨m₁, hm₁, h⟩ := bind_eq_ok.mp h
    have hsame : m₁.userName id' = m.userName id' := by
      rw [NameMappings.userName, userNames_of_add hm₁, NameMappings.userName]
    split at h
    · next hne =>
      rw [userName_of_addUserName h, hsame, if_pos (.inr hne)]
      simp
    · next hne =>
      cases h
      rw [hsame, if_neg (not_or.mpr ⟨hduplicate, hne⟩)]
      simp

end UserNames

/-! ### One projection -/

/-- The column of a projection: its id, the names added for it, and the name the user gave it. -/
structure Placement where
  id : ColumnId
  gives : List QualifiedName
  userName : Option String

/-- The names of a column that is passed through under its own name: its alias if that is none of
the input's names for it. -/
def identityNames (inputNames : List QualifiedName) («alias» : Option String) :
    List QualifiedName :=
  match «alias» with
  | some name => if inputNames.all (·.name ≠ name) then [⟨none, name⟩] else inputNames
  | none => inputNames

/-- The qualified names that a column keeps which is named by an alias. -/
def keptNames (inputNames : List QualifiedName) («alias» : String) : List QualifiedName :=
  if inputNames.all (·.name ≠ «alias») then []
  else inputNames.filter fun name => name.alias.isSome

/-- **Where the column of a projection goes**, after columns that were seen; `taken` are the ids in
use. -/
inductive Places (builder : PlanBuilder) (tracker : NameTracker) (seen taken : List ColumnId) :
    Option String → TypedExpr T → Placement → Prop where
  | empty {expr : TypedExpr T} {id : ColumnId} (hid : id ∉ taken) :
      Places builder tracker seen taken (some "") expr ⟨id, [], some ""⟩
  | identity {«alias» : Option String} {expr : TypedExpr T} {id : ColumnId}
      {inputNames : List QualifiedName} (halias : «alias» ≠ some "")
      (hidentity : builder.identityOf «alias» expr = some id) (hseen : id ∉ seen)
      (hnames : builder.outputMapping.reverseLookup id = .ok inputNames) :
      Places builder tracker seen taken «alias» expr
        ⟨id, identityNames inputNames «alias», builder.outputMapping.userName id⟩
  | again {«alias» : Option String} {expr : TypedExpr T} {id newId : ColumnId}
      {inputNames : List QualifiedName} (halias : «alias» ≠ some "")
      (hidentity : builder.identityOf «alias» expr = some id) (hseen : id ∈ seen)
      (hnames : builder.outputMapping.reverseLookup id = .ok inputNames) (hid : newId ∉ taken) :
      Places builder tracker seen taken «alias» expr
        ⟨newId, [], (builder.outputMapping.userName id).or (pickName inputNames)⟩
  | named {«alias» : String} {expr : TypedExpr T} {newId : ColumnId}
      {inputNames : List QualifiedName} (halias : «alias» ≠ "")
      (hidentity : builder.identityOf (some «alias») expr = none)
      (hnames : builder.inputNames expr = .ok inputNames) (hid : newId ∉ taken) :
      Places builder tracker seen taken (some «alias») expr
        ⟨newId, ⟨none, «alias»⟩ :: keptNames inputNames «alias»,
          if «alias» ∈ tracker.duplicates ∨ newId ≠ «alias» then some «alias» else none⟩
  | anonymous {expr : TypedExpr T} {id : ColumnId}
      (hidentity : builder.identityOf none expr = none) (hid : id ∉ taken) :
      Places builder tracker seen taken none expr ⟨id, [], none⟩

lemma identityOf_eq_some {builder : PlanBuilder} {«alias» : Option String} {expr : TypedExpr T}
    {id : ColumnId} : builder.identityOf «alias» expr = some id ↔
      expr = .inputReference id ∧ id ∈ builder.outputs ∧ («alias» = none ∨ «alias» = some id) := by
  cases expr with
  | other => simp [PlanBuilder.identityOf]
  | inputReference id' =>
      rw [PlanBuilder.identityOf, Option.ite_none_right_eq_some, Option.some.injEq,
        TypedExpr.inputReference.injEq, and_comm]
      exact and_congr_right fun heq => by rw [heq]

/-- The names added for some columns. -/
def pairsOf (placements : List Placement) : List (QualifiedName × ColumnId) :=
  placements.flatMap fun p => p.gives.map fun name => (name, p.id)

/-- What holds after some projections, over a mapping and columns that were passed through. -/
structure PlacedInv (builder : PlanBuilder) (tracker : NameTracker) (base : NameMappings)
    (passed : List ColumnId) (placements : List Placement) (placed : Placed T) : Prop where
  ids : placed.outputNames = passed ++ placements.map Placement.id
  nodup : placed.outputNames.Nodup
  taken : ∀ id, id ∈ placed.outputNames ∨ id ∈ builder.outputs → id ∈ placed.nameAllocator.names
  nonempty : "" ∉ placed.nameAllocator.names
  seen : ∀ id ∈ builder.outputs, id ∈ placed.seenColumnIds ↔ id ∈ placed.outputNames
  tracked : Tracked tracker base (pairsOf placements) placed.mappings
  users : ∀ id name, placed.mappings.userName id = some name ↔
    base.userName id = some name ∨ ∃ p ∈ placements, p.id = id ∧ p.userName = some name

variable {builder : PlanBuilder} {tracker : NameTracker} {base : NameMappings}
  {passed : List ColumnId} {placements : List Placement} {placed placed' : Placed T}

/-- One more column, whose id is new or that of a column that was not seen. -/
lemma PlacedInv.append (h : PlacedInv builder tracker base passed placements placed)
    {p : Placement} (hids : placed'.outputNames = placed.outputNames ++ [p.id])
    (hnew : p.id ∉ placed.outputNames)
    (htaken : ∀ id, id = p.id ∨ id ∈ placed.nameAllocator.names → id ∈ placed'.nameAllocator.names)
    (hnonempty : "" ∉ placed'.nameAllocator.names)
    (hseen : ∀ id ∈ builder.outputs, id ∈ placed'.seenColumnIds ↔
      id ∈ placed.seenColumnIds ∨ id = p.id)
    (htracked : Tracked tracker base
      (pairsOf placements ++ p.gives.map fun name => (name, p.id)) placed'.mappings)
    (husers : ∀ id name, placed'.mappings.userName id = some name ↔
      placed.mappings.userName id = some name ∨ p.id = id ∧ p.userName = some name) :
    PlacedInv builder tracker base passed (placements ++ [p]) placed' where
  ids := by rw [hids, h.ids, List.map_append, List.append_assoc]; rfl
  nodup := by
    rw [hids]
    exact h.nodup.append (List.nodup_singleton _) (by simpa using hnew)
  taken id hid := by
    rw [hids, List.mem_append, List.mem_singleton] at hid
    rcases hid with (hid | hid) | hid
    · exact htaken id (.inr (h.taken id (.inl hid)))
    · exact htaken id (.inl hid)
    · exact htaken id (.inr (h.taken id (.inr hid)))
  nonempty := hnonempty
  seen id hid := by
    rw [hseen id hid, hids, List.mem_append, List.mem_singleton, h.seen id hid]
  tracked := by
    have hpairs : pairsOf (placements ++ [p]) =
        pairsOf placements ++ p.gives.map fun name => (name, p.id) := by
      simp [pairsOf]
    rw [hpairs]
    exact htracked
  users id name := by
    rw [husers, h.users, or_assoc]
    refine or_congr_right ?_
    simp only [List.mem_append, List.mem_singleton, or_and_right, exists_or, exists_eq_left]

/-- A column with a new id. -/
lemma PlacedInv.appendNew (h : PlacedInv builder tracker base passed placements placed)
    {hint : String} {p : Placement} {allocator : NameAllocator} {mappings : NameMappings}
    (hname : placed.nameAllocator.newName hint = .ok (p.id, allocator))
    (htracked : Tracked tracker base
      (pairsOf placements ++ p.gives.map fun name => (name, p.id)) mappings)
    (husers : ∀ id name, mappings.userName id = some name ↔
      placed.mappings.userName id = some name ∨ p.id = id ∧ p.userName = some name) :
    p.id ∉ placed.nameAllocator.names ∧
      PlacedInv builder tracker base passed (placements ++ [p])
        { placed with
          outputNames := placed.outputNames ++ [p.id]
          mappings := mappings
          nameAllocator := allocator } := by
  obtain ⟨hnew, hne, hnames⟩ := NameAllocator.newName_ok hname
  refine ⟨hnew, h.append rfl (fun hmem => hnew (h.taken _ (.inl hmem))) (fun id hid => ?_) ?_
    (fun id hid => (or_iff_left fun heq => ?_).symm) htracked husers⟩
  · show id ∈ allocator.names
    rw [hnames, List.mem_cons]
    exact hid
  · show "" ∉ allocator.names
    rw [hnames, List.mem_cons, not_or]
    exact ⟨Ne.symm hne, h.nonempty⟩
  · exact hnew (heq ▸ h.taken id (.inr hid))

lemma PlacedInv.placeUnnamed (h : PlacedInv builder tracker base passed placements placed)
    {hint : String} {userName : Option String}
    (hplace : PlanBuilder.placeUnnamed hint userName placed = .ok placed') :
    ∃ id, id ∉ placed.nameAllocator.names ∧
      PlacedInv builder tracker base passed (placements ++ [⟨id, [], userName⟩]) placed' := by
  obtain ⟨⟨id, allocator⟩, hname, hplace⟩ := bind_eq_ok.mp hplace
  obtain ⟨mappings, hmappings, hplace⟩ := bind_eq_ok.mp hplace
  cases hplace
  have hmappings := liftNames_eq_ok.mp hmappings
  refine ⟨id, ?_⟩
  cases userName with
  | none =>
      cases hmappings
      exact h.appendNew (p := ⟨id, [], none⟩) hname (by simpa using h.tracked) (by simp)
  | some name =>
      obtain ⟨hsame, hambiguous, -⟩ := NameMappings.of_addUserName hmappings
      exact h.appendNew (p := ⟨id, [], some name⟩) hname
        (by simpa using h.tracked.congr hsame hambiguous) fun id' name' => by
          rw [userName_of_addUserName hmappings]
          simp

lemma PlacedInv.placeNamed (h : PlacedInv builder tracker base passed placements placed)
    {inputNames : List QualifiedName} {«alias» : String}
    (hplace : PlanBuilder.placeNamed tracker inputNames «alias» placed = .ok placed') :
    ∃ id, id ∉ placed.nameAllocator.names ∧
      PlacedInv builder tracker base passed (placements ++
        [⟨id, ⟨none, «alias»⟩ :: keptNames inputNames «alias»,
          if «alias» ∈ tracker.duplicates ∨ id ≠ «alias» then some «alias» else none⟩])
        placed' := by
  obtain ⟨⟨id, allocator⟩, hname, hplace⟩ := bind_eq_ok.mp hplace
  obtain ⟨m₁, hm₁, hplace⟩ := bind_eq_ok.mp hplace
  obtain ⟨m₂, hm₂, hplace⟩ := bind_eq_ok.mp hplace
  cases hplace
  have hm₁ := liftNames_eq_ok.mp hm₁
  have hm₂ := liftNames_eq_ok.mp hm₂
  have htracked := (h.tracked.addNamed hm₁).foldlM hm₂
  rw [List.append_assoc] at htracked
  refine ⟨id, h.appendNew (p := ⟨id, _, _⟩) hname htracked fun id' name' => ?_⟩
  rw [NameMappings.userName, NameTracker.userNames_of_foldlM hm₂, ← NameMappings.userName,
    userName_of_addNamed hm₁]

lemma PlacedInv.placeIdentity (h : PlacedInv builder tracker base passed placements placed)
    {inputNames : List QualifiedName} {«alias» : Option String} {id : ColumnId}
    (hid : id ∈ builder.outputs)
    (hplace : builder.placeIdentity tracker inputNames «alias» id placed = .ok placed') :
    (id ∉ placed.seenColumnIds ∧ PlacedInv builder tracker base passed (placements ++
        [⟨id, identityNames inputNames «alias», builder.outputMapping.userName id⟩]) placed') ∨
      id ∈ placed.seenColumnIds ∧ ∃ newId, newId ∉ placed.nameAllocator.names ∧
        PlacedInv builder tracker base passed (placements ++
          [⟨newId, [], (builder.outputMapping.userName id).or (pickName inputNames)⟩]) placed' := by
  unfold PlanBuilder.placeIdentity at hplace
  split at hplace
  · next hseen =>
    refine .inr ⟨hseen, ?_⟩
    obtain ⟨⟨newId, allocator⟩, hname, hplace⟩ := bind_eq_ok.mp hplace
    obtain ⟨mappings, hmappings, hplace⟩ := bind_eq_ok.mp hplace
    cases hplace
    have hmappings := liftNames_eq_ok.mp hmappings
    refine ⟨newId, ?_⟩
    rcases huser : (builder.outputMapping.userName id).or (pickName inputNames) with - | name
    · rw [huser] at hmappings
      cases hmappings
      exact h.appendNew (p := ⟨newId, [], none⟩) hname (by simpa using h.tracked) (by simp)
    · rw [huser] at hmappings
      obtain ⟨hsame, hambiguous, -⟩ := NameMappings.of_addUserName hmappings
      exact h.appendNew (p := ⟨newId, [], some name⟩) hname
        (by simpa using h.tracked.congr hsame hambiguous) fun id' name' => by
          rw [userName_of_addUserName hmappings]
          simp
  · next hseen =>
    refine .inl ⟨hseen, ?_⟩
    obtain ⟨m₁, hm₁, hplace⟩ := bind_eq_ok.mp hplace
    obtain ⟨m₂, hm₂, hplace⟩ := bind_eq_ok.mp hplace
    cases hplace
    have hm₁ := liftNames_eq_ok.mp hm₁
    have hm₂ := liftNames_eq_ok.mp hm₂
    obtain ⟨hsame, hambiguous, -⟩ := NameMappings.of_copyUserName hm₂
    have htracked := (h.tracked.foldlM hm₁).congr hsame hambiguous
    refine h.append (p := ⟨id, _, _⟩) rfl (fun hmem => hseen ((h.seen id hid).mpr hmem))
      (fun id' hid' => ?_) h.nonempty (fun id' _ => ?_) htracked fun id' name' => ?_
    · rcases hid' with rfl | hid'
      · exact h.taken _ (.inr hid)
      · exact hid'
    · rw [List.mem_cons, or_comm]
    · have hm₁' : m₁.userName id' = placed.mappings.userName id' := by
        rw [NameMappings.userName, NameTracker.userNames_of_foldlM hm₁, NameMappings.userName]
      unfold NameMappings.copyUserName at hm₂
      split at hm₂
      · next name hname =>
        rw [userName_of_addUserName hm₂, hm₁', hname]
        simp
      · next hnone =>
        cases hm₂
        rw [hm₁', hnone]
        simp

/-- Placing a column leaves the expressions. -/
lemma exprs_of_place {«alias» : Option String} {expr : TypedExpr T}
    (h : builder.place tracker «alias» expr placed = .ok placed') :
    placed'.exprs = placed.exprs := by
  have hunnamed {hint : String} {userName : Option String}
      (h : PlanBuilder.placeUnnamed hint userName placed = .ok placed') :
      placed'.exprs = placed.exprs := by
    obtain ⟨_, -, h₁⟩ := bind_eq_ok.mp h
    obtain ⟨_, -, h₂⟩ := bind_eq_ok.mp h₁
    cases h₂
    rfl
  unfold PlanBuilder.place at h
  split at h
  · split at h
    · exact hunnamed h
    · cases h
  obtain ⟨inputNames, -, h₁⟩ := bind_eq_ok.mp h
  split at h₁
  · unfold PlanBuilder.placeIdentity at h₁
    split at h₁
    all_goals
      obtain ⟨_, -, h₂⟩ := bind_eq_ok.mp h₁
      obtain ⟨_, -, h₃⟩ := bind_eq_ok.mp h₂
      cases h₃
      rfl
  · obtain ⟨_, -, h₂⟩ := bind_eq_ok.mp h₁
    obtain ⟨_, -, h₃⟩ := bind_eq_ok.mp h₂
    obtain ⟨_, -, h₄⟩ := bind_eq_ok.mp h₃
    cases h₄
    rfl
  · exact hunnamed h₁

/-- **One more projection.** -/
lemma place_spec (h : PlacedInv builder tracker base passed placements placed)
    {«alias» : Option String} {expr : TypedExpr T}
    (hplace : builder.place tracker «alias» expr placed = .ok placed') :
    ∃ p, Places builder tracker placed.seenColumnIds placed.nameAllocator.names «alias» expr p ∧
      PlacedInv builder tracker base passed (placements ++ [p]) placed' := by
  unfold PlanBuilder.place at hplace
  split at hplace
  · next halias =>
    subst halias
    split at hplace
    · obtain ⟨id, hid, hinv⟩ := h.placeUnnamed hplace
      exact ⟨_, .empty hid, hinv⟩
    · cases hplace
  next halias =>
  obtain ⟨inputNames, hnames, hrest⟩ := bind_eq_ok.mp hplace
  clear hplace
  rcases hidentity : builder.identityOf «alias» expr with - | id
  · rw [hidentity] at hrest
    cases «alias» with
    | none =>
        obtain ⟨id, hid, hinv⟩ := h.placeUnnamed hrest
        exact ⟨_, .anonymous hidentity hid, hinv⟩
    | some name =>
        obtain ⟨id, hid, hinv⟩ := h.placeNamed hrest
        exact ⟨_, .named (fun hempty => halias (hempty ▸ rfl)) hidentity hnames hid, hinv⟩
  · rw [hidentity] at hrest
    obtain ⟨rfl, hid, -⟩ := identityOf_eq_some.mp hidentity
    have hnames := liftNames_eq_ok.mp hnames
    rcases h.placeIdentity hid hrest with ⟨hseen, hinv⟩ | ⟨hseen, newId, hnewId, hinv⟩
    · exact ⟨_, .identity halias hidentity hseen hnames, hinv⟩
    · exact ⟨_, .again halias hidentity hseen hnames hnewId, hinv⟩

end Verax.Projections
