import Verax.DistinctAggregates.ExpandDistinct
import Verax.Lib.Dictionary

/-!
# The groups of the loop

What the loop over the calls keeps: each group pairs its masks with its markers, each marker is a
fresh column of one group, and each call that has a marker has it in the group of its keys.

* `AggregateCall.Precomputed`: the calls that the lowering is given.
* `exists_addFilter`, `exists_addCall`, `exists_addAggregate`: one round.
* `exists_expansion`: the loop.
-/

namespace Verax.DistinctAggregates

variable {V : Type} {firstId : ℕ}

/-! ### Calls over columns -/

/-- A column of the input. -/
def Expr.IsInputColumn (firstId : ℕ) : Expr V → Prop
  | .column c => c.id < firstId
  | _ => False

/-- A call that reads literals and columns of the input.
Source: `PlanPhysicalPass.cpp` `precomputeAggregateArgs`, its comment. -/
structure AggregateCall.Precomputed (firstId : ℕ) (call : AggregateCall V) : Prop where
  args : ∀ e ∈ call.args, (∃ value, e = .literal value) ∨ e.IsInputColumn firstId
  condition : ∀ e, call.condition = some e → e.IsInputColumn firstId
  orderKeys : ∀ e ∈ call.orderKeys, e.IsInputColumn firstId

/-- Distinct columns with ids in a range. -/
structure Fresh (lo hi : ℕ) (columns : List Column) : Prop where
  nodup : columns.Nodup
  range : ∀ c ∈ columns, lo ≤ c.id ∧ c.id < hi

lemma fresh_nil {lo hi : ℕ} : Fresh lo hi [] := ⟨List.nodup_nil, by simp⟩

lemma fresh_single (n : ℕ) : Fresh n (n + 1) [⟨n⟩] := ⟨List.nodup_singleton _, by simp⟩

/-- Later columns differ from earlier ones. -/
lemma Fresh.append {lo mid hi : ℕ} {before after : List Column} (h : Fresh lo mid before)
    (h' : Fresh mid hi after) (hlo : lo ≤ mid) (hhi : mid ≤ hi) : Fresh lo hi (after ++ before) where
  nodup := by
    refine List.nodup_append.mpr ⟨h'.nodup, h.nodup, fun a ha b hb heq => ?_⟩
    have hafter := (h'.range a ha).1
    have hbefore := (h.range b hb).2
    rw [heq] at hafter
    omega
  range c hc := by
    rcases List.mem_append.mp hc with hc | hc
    · exact ⟨hlo.trans (h'.range c hc).1, (h'.range c hc).2⟩
    · exact ⟨(h.range c hc).1, (h.range c hc).2.trans_le hhi⟩

lemma Fresh.perm {lo hi : ℕ} {columns columns' : List Column} (h : Fresh lo hi columns)
    (hperm : columns'.Perm columns) : Fresh lo hi columns' :=
  ⟨hperm.nodup_iff.mpr h.nodup, fun c hc => h.range c (hperm.mem_iff.mp hc)⟩

/-! ### One group -/

/-- A group pairs the FILTERs with its markers, and its keys and masks are columns of the input. -/
structure MarkDistinctGroup.WellFormed (firstId : ℕ) (group : MarkDistinctGroup V) : Prop where
  filters : group.filterToMarker =
    (markerFilters group.markers group.masks).map fun p => (p.1.map Expr.column, p.2)
  length : group.markers.length = group.masks.length + 1
  keys : ∀ c ∈ group.keys, c.id < firstId
  masks : ∀ c ∈ group.masks, c.id < firstId

/-- What a round does to a group. -/
structure MarkDistinctGroup.Grows (group group' : MarkDistinctGroup V) (nextId nextId' : ℕ) :
    Prop where
  le : nextId ≤ nextId'
  keys : group'.keys = group.keys
  filters : group.filterToMarker ⊆ group'.filterToMarker
  markers : ∃ fresh, group'.markers = group.markers ++ fresh ∧ Fresh nextId nextId' fresh

lemma wellFormed_new {keys : List Column} (hkeys : ∀ c ∈ keys, c.id < firstId) (marker : Column) :
    (MarkDistinctGroup.new keys marker : MarkDistinctGroup V).WellFormed firstId :=
  ⟨rfl, rfl, hkeys, by simp [MarkDistinctGroup.new]⟩

namespace MarkDistinctGroup.WellFormed

variable {group : MarkDistinctGroup V}

/-- The calls without a FILTER have a marker. -/
lemma lookup_none [DecidableEq V] (h : group.WellFormed firstId) :
    ∃ marker, group.filterToMarker.lookup none = some marker := by
  have hlength := h.length
  have hfilters := h.filters
  cases hmarkers : group.markers with
  | nil =>
      rw [hmarkers] at hlength
      simp at hlength
  | cons marker markers =>
      rw [hmarkers] at hfilters
      refine ⟨marker, ?_⟩
      rw [hfilters]
      simp [markerFilters]

/-- A group with one more mask. -/
lemma addMask (h : group.WellFormed firstId) {mask : Column} (hmask : mask.id < firstId)
    (marker : Column) : MarkDistinctGroup.WellFormed firstId { group with
      markers := group.markers ++ [marker]
      masks := group.masks ++ [mask]
      filterToMarker := group.filterToMarker ++ [(some (.column mask), marker)] } where
  filters := by
    have hlength : (none :: group.masks.map some).length = group.markers.length := by
      simp [h.length]
    simp only [h.filters, markerFilters]
    rw [List.map_append, ← List.cons_append, List.zip_append hlength, List.map_append]
    rfl
  length := by simp [h.length]
  keys := h.keys
  masks c hc := by
    rcases List.mem_append.mp hc with hc | hc
    · exact h.masks c hc
    · rw [List.mem_singleton.mp hc]
      exact hmask

/-- The marker of a FILTER over a column. -/
lemma exists_addFilter [DecidableEq V] (h : group.WellFormed firstId) {filter : Option (Expr V)}
    (hfilter : ∀ e, filter = some e → e.IsInputColumn firstId) (nextId : ℕ) :
    ∃ group' marker nextId', group.addFilter filter nextId = .ok (group', marker, nextId') ∧
      group'.WellFormed firstId ∧ group.Grows group' nextId nextId' ∧
      (filter, marker) ∈ group'.filterToMarker := by
  unfold addFilter
  cases hlookup : group.filterToMarker.lookup filter with
  | some marker =>
      exact ⟨group, marker, nextId, rfl, h,
        ⟨le_rfl, rfl, List.Subset.refl _, [], by simp, fresh_nil⟩, Lib.Dictionary.mem_of_lookup hlookup⟩
  | none =>
      cases filter with
      | none =>
          obtain ⟨marker, hmarker⟩ := h.lookup_none
          rw [hlookup] at hmarker
          cases hmarker
      | some e =>
          have hcolumn := hfilter e rfl
          cases e with
          | column mask =>
              refine ⟨_, _, _, rfl, h.addMask hcolumn _, ?_, ?_⟩
              · exact ⟨Nat.le_succ _, rfl, List.subset_append_left _ _, [⟨nextId⟩], rfl,
                  fresh_single nextId⟩
              · exact List.mem_append_right _ List.mem_cons_self
          | literal value => exact hcolumn.elim
          | call text => exact hcolumn.elim

end MarkDistinctGroup.WellFormed

/-! ### All groups -/

namespace Groups

/-- The markers of all groups. -/
def markers (groups : Groups V) : List Column := groups.flatMap fun p => p.2.markers

/-- Groups under their sets of keys. -/
def WellFormed (firstId : ℕ) (groups : Groups V) : Prop :=
  ∀ p ∈ groups, p.2.WellFormed firstId ∧ p.1 = p.2.keys.toFinset

/-- What a round does to the groups. -/
structure Grows (groups groups' : Groups V) (nextId nextId' : ℕ) : Prop where
  le : nextId ≤ nextId'
  kept : ∀ p ∈ groups, ∃ p' ∈ groups', p'.2.keys = p.2.keys ∧
    p.2.filterToMarker ⊆ p'.2.filterToMarker
  markers : ∃ fresh, groups'.markers.Perm (fresh ++ groups.markers) ∧ Fresh nextId nextId' fresh

/-- A call with some keys and FILTER has a marker in a group. -/
def Has (groups : Groups V) (keys : List Column) (filter : Option (Expr V)) (marker : Column) :
    Prop :=
  ∃ p ∈ groups, p.2.keys.toFinset = keys.toFinset ∧ (filter, marker) ∈ p.2.filterToMarker

/-- One more group. -/
private lemma grows_cons {groups groups' : Groups V} {nextId nextId' : ℕ}
    (h : groups.Grows groups' nextId nextId') (p : Finset Column × MarkDistinctGroup V) :
    Grows (p :: groups) (p :: groups') nextId nextId' where
  le := h.le
  kept q hq := by
    rcases List.mem_cons.mp hq with rfl | hq
    · exact ⟨q, List.mem_cons_self, rfl, List.Subset.refl _⟩
    · obtain ⟨q', hq', hkept⟩ := h.kept q hq
      exact ⟨q', List.mem_cons_of_mem _ hq', hkept⟩
  markers := by
    obtain ⟨fresh, hperm, hfresh⟩ := h.markers
    refine ⟨fresh, ?_, hfresh⟩
    calc p.2.markers ++ Groups.markers groups'
        |>.Perm (p.2.markers ++ (fresh ++ Groups.markers groups)) := hperm.append_left _
      _ |>.Perm (fresh ++ (p.2.markers ++ Groups.markers groups)) := by
        rw [← List.append_assoc, ← List.append_assoc]
        exact List.perm_append_comm.append_right _

/-- The first group grows. -/
private lemma grows_head {group group' : MarkDistinctGroup V} {nextId nextId' : ℕ}
    (h : group.Grows group' nextId nextId') (keySet : Finset Column) (rest : Groups V) :
    Grows ((keySet, group) :: rest) ((keySet, group') :: rest) nextId nextId' where
  le := h.le
  kept q hq := by
    rcases List.mem_cons.mp hq with rfl | hq
    · exact ⟨_, List.mem_cons_self, h.keys, h.filters⟩
    · exact ⟨q, List.mem_cons_of_mem _ hq, rfl, List.Subset.refl _⟩
  markers := by
    obtain ⟨fresh, hmarkers, hfresh⟩ := h.markers
    refine ⟨fresh, ?_, hfresh⟩
    change (group'.markers ++ Groups.markers rest).Perm
      (fresh ++ (group.markers ++ Groups.markers rest))
    rw [hmarkers, ← List.append_assoc]
    exact List.perm_append_comm.append_right _

/-- The marker of a call in the groups. -/
lemma exists_addCall [DecidableEq V] {keys : List Column} (hkeys : ∀ c ∈ keys, c.id < firstId)
    {filter : Option (Expr V)} (hfilter : ∀ e, filter = some e → e.IsInputColumn firstId)
    (nextId : ℕ) : ∀ {groups : Groups V}, groups.WellFormed firstId →
      ∃ groups' marker nextId',
        groups.addCall keys filter nextId = .ok (groups', marker, nextId') ∧
        groups'.WellFormed firstId ∧ groups.Grows groups' nextId nextId' ∧
        groups'.Has keys filter marker
  | [], _ => by
      obtain ⟨group, marker, nextId', hadd, hwf, hgrows, hmem⟩ :=
        (wellFormed_new (V := V) hkeys ⟨nextId⟩).exists_addFilter hfilter (nextId + 1)
      refine ⟨[(keys.toFinset, group)], marker, nextId', ?_, ?_, ?_, ?_⟩
      · rw [Groups.addCall, hadd]
        rfl
      · intro p hp
        rw [List.mem_singleton.mp hp]
        exact ⟨hwf, by rw [hgrows.keys]; rfl⟩
      · obtain ⟨fresh, hmarkers, hfresh⟩ := hgrows.markers
        refine ⟨(Nat.le_succ _).trans hgrows.le, by simp, _, ?_,
          (fresh_single nextId).append hfresh (Nat.le_succ _) hgrows.le⟩
        simp only [Groups.markers, List.flatMap_cons, List.flatMap_nil, List.append_nil, hmarkers]
        exact List.perm_append_comm
      · exact ⟨_, List.mem_cons_self, by rw [hgrows.keys]; rfl, hmem⟩
  | (keySet, group) :: rest, h => by
      obtain ⟨hhead, hkeySet⟩ := h _ List.mem_cons_self
      have hrest : Groups.WellFormed firstId rest := fun p hp => h p (List.mem_cons_of_mem _ hp)
      rw [Groups.addCall]
      by_cases hsame : keySet = keys.toFinset
      · obtain ⟨group', marker, nextId', hadd, hwf, hgrows, hmem⟩ :=
          hhead.exists_addFilter hfilter nextId
        refine ⟨(keySet, group') :: rest, marker, nextId', ?_, ?_, grows_head hgrows _ _, ?_⟩
        · rw [if_pos hsame, hadd]
          rfl
        · intro p hp
          rcases List.mem_cons.mp hp with rfl | hp
          · exact ⟨hwf, by rw [hgrows.keys]; exact hkeySet⟩
          · exact hrest p hp
        · refine ⟨_, List.mem_cons_self, ?_, hmem⟩
          rw [hgrows.keys, ← hsame]
          exact hkeySet.symm
      · obtain ⟨rest', marker, nextId', hadd, hwf, hgrows, p, hp, hhas⟩ :=
          exists_addCall hkeys hfilter nextId hrest
        refine ⟨(keySet, group) :: rest', marker, nextId', ?_, ?_, grows_cons hgrows _,
          p, List.mem_cons_of_mem _ hp, hhas⟩
        · rw [if_neg hsame, hadd]
          rfl
        · intro p hp
          rcases List.mem_cons.mp hp with rfl | hp
          · exact ⟨hhead, hkeySet⟩
          · exact hwf p hp

end Groups

/-! ### The loop -/

/-- The keys of a call: the grouping keys and the columns among the arguments. -/
lemma exists_unionColumnArgs : ∀ {args : List (Expr V)} (keys : List Column),
    (∀ e ∈ args, (∃ value, e = .literal value) ∨ e.IsInputColumn firstId) →
    ∃ merged, unionColumnArgs keys args = .ok merged ∧
      ∀ c, c ∈ merged ↔ c ∈ keys ∨ .column c ∈ args
  | [], keys, _ => ⟨keys, rfl, by simp⟩
  | .literal value :: args, keys, h => by
      obtain ⟨merged, hmerged, hmem⟩ :=
        exists_unionColumnArgs keys fun e he => h e (List.mem_cons_of_mem _ he)
      exact ⟨merged, hmerged, fun c => by simp [hmem]⟩
  | .column column :: args, keys, h => by
      obtain ⟨merged, hmerged, hmem⟩ :=
        exists_unionColumnArgs (if column ∈ keys then keys else keys ++ [column])
          fun e he => h e (List.mem_cons_of_mem _ he)
      refine ⟨merged, hmerged, fun c => ?_⟩
      rw [hmem]
      split <;> simp <;> grind
  | .call text :: args, keys, h => by
      rcases h _ List.mem_cons_self with ⟨value, hvalue⟩ | hcolumn
      · cases hvalue
      · exact hcolumn.elim

/-- A group has a marker for a call. -/
structure Serves (groupingKeys : List Column) (call : AggregateCall V) (marker : Column)
    (group : MarkDistinctGroup V) : Prop where
  distinct : call.isDistinct = true
  keys : ∀ c, c ∈ group.keys ↔ c ∈ groupingKeys ∨ .column c ∈ call.args
  filter : (call.condition, marker) ∈ group.filterToMarker

/-- What the loop keeps. -/
structure Expansion.Invariant (groupingKeys : List Column) (firstId : ℕ) (expansion : Expansion V) :
    Prop where
  le : firstId ≤ expansion.nextId
  groups : expansion.groups.WellFormed firstId
  fresh : Fresh firstId expansion.nextId expansion.groups.markers
  served : ∀ p ∈ expansion.aggregateToMarker,
    ∃ q ∈ expansion.groups, Serves groupingKeys p.1 p.2 q.2

/-- A call in a group stays in it while the groups grow. -/
lemma Serves.grows {groupingKeys : List Column} {call : AggregateCall V} {marker : Column}
    {group group' : MarkDistinctGroup V} (h : Serves groupingKeys call marker group)
    (hkeys : group'.keys = group.keys) (hfilters : group.filterToMarker ⊆ group'.filterToMarker) :
    Serves groupingKeys call marker group' :=
  ⟨h.distinct, fun c => by rw [hkeys, h.keys], hfilters h.filter⟩

/-- One round. -/
lemma exists_addAggregate [DecidableEq V] {groupingKeys : List Column} (hkeys : ∀ c ∈ groupingKeys, c.id < firstId)
    {expansion : Expansion V} (h : expansion.Invariant groupingKeys firstId)
    {call : AggregateCall V} (hcall : call.Precomputed firstId) :
    ∃ expansion', addAggregate groupingKeys expansion call = .ok expansion' ∧
      expansion'.Invariant groupingKeys firstId := by
  unfold addAggregate
  cases hdistinct : call.isDistinct with
  | false => exact ⟨expansion, rfl, h⟩
  | true =>
      obtain ⟨keys, hunion, hmem⟩ := exists_unionColumnArgs groupingKeys hcall.args
      have hbelow : ∀ c ∈ keys, c.id < firstId := by
        intro c hc
        rcases (hmem c).mp hc with hc | hc
        · exact hkeys c hc
        · rcases hcall.args _ hc with ⟨value, hvalue⟩ | hcolumn
          · cases hvalue
          · exact hcolumn
      rw [hunion]
      by_cases hsame : keys.toFinset = groupingKeys.toFinset
      · exact ⟨expansion, by simp [bind, Except.bind, hsame], h⟩
      · obtain ⟨groups, marker, nextId, hadd, hwf, hgrows, q, hq, hqkeys, hqfilter⟩ :=
          Groups.exists_addCall hbelow hcall.condition expansion.nextId h.groups
        refine ⟨⟨groups, (call, marker) :: expansion.aggregateToMarker, nextId⟩,
          by simp [bind, Except.bind, hsame, hadd], h.le.trans hgrows.le, hwf, ?_, ?_⟩
        · obtain ⟨fresh, hperm, hfresh⟩ := hgrows.markers
          exact (h.fresh.append hfresh h.le hgrows.le).perm hperm
        · intro p hp
          rcases List.mem_cons.mp hp with rfl | hp
          · refine ⟨q, hq, hdistinct, fun c => ?_, hqfilter⟩
            rw [← List.mem_toFinset, hqkeys, List.mem_toFinset, hmem]
          · obtain ⟨r, hr, hserves⟩ := h.served p hp
            obtain ⟨r', hr', hrkeys, hrfilters⟩ := hgrows.kept r hr
            exact ⟨r', hr', hserves.grows hrkeys hrfilters⟩

/-- The loop. -/
lemma exists_expansion [DecidableEq V] {groupingKeys : List Column} (hkeys : ∀ c ∈ groupingKeys, c.id < firstId) :
    ∀ {aggregates : List (AggregateCall V)} {expansion : Expansion V},
      (∀ call ∈ aggregates, call.Precomputed firstId) →
      expansion.Invariant groupingKeys firstId →
      ∃ expansion', aggregates.foldlM (addAggregate groupingKeys) expansion = .ok expansion' ∧
        expansion'.Invariant groupingKeys firstId
  | [], expansion, _, h => ⟨expansion, rfl, h⟩
  | call :: rest, expansion, hcalls, h => by
      obtain ⟨expansion₁, hround, h₁⟩ :=
        exists_addAggregate hkeys h (hcalls call List.mem_cons_self)
      obtain ⟨expansion', hloop, h'⟩ :=
        exists_expansion hkeys (fun c hc => hcalls c (List.mem_cons_of_mem _ hc)) h₁
      exact ⟨expansion', Lib.Outcome.foldlM_cons_eq_ok.mpr ⟨expansion₁, hround, hloop⟩, h'⟩

end Verax.DistinctAggregates
