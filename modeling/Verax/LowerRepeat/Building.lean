import Verax.LowerRepeat.Rows

/-!
# What the parts of the lowering build

* `createColumns_eq`: new columns have the given types, and differ from each other and from all
  columns before.
* `PlanSubstitutions.addAll_eq`, `PlanSubstitutions.apply_eq`: substituting new columns for old ones.
* `HopColumns.of_spec`: which columns of the hop are values and which are collected.
* `Node.rows_congr`: a plan depends only on the states it reads.
-/

namespace Verax.LowerRepeat

open Verax.Lib Verax.Filters

/-! ### Steps of a building -/

lemma bind_ok {α β : Type} {m : Build α} {f : α → Build β} {n n' : ℕ} {a : α}
    (h : m n = .ok (a, n')) : (m >>= f) n = f a n' := by
  change (m n >>= fun p => f p.1 p.2) = _
  rw [h]
  rfl

lemma bind_error {α β : Type} {m : Build α} {f : α → Build β} {n : ℕ} {e : String}
    (h : m n = .error e) : (m >>= f) n = .error e := by
  change (m n >>= fun p => f p.1 p.2) = _
  rw [h]
  rfl

lemma pure_ok {α : Type} (a : α) (n : ℕ) : (pure a : Build α) n = .ok (a, n) := rfl

lemma check_ok {α : Type} {made : Except String α} {a : α} (h : made = .ok a) (n : ℕ) :
    Build.check made n = .ok (a, n) := by
  rw [h]
  rfl

lemma check_error {α : Type} {made : Except String α} {e : String} (h : made = .error e) (n : ℕ) :
    Build.check made n = .error e := by
  rw [h]
  rfl

/-! ### New columns -/

/-- The columns of the given types whose numbers start at `n`. -/
def freshColumns : ℕ → List SqlType → List Column
  | _, [] => []
  | n, type :: types => ⟨n, type⟩ :: freshColumns (n + 1) types

lemma createColumns_eq : ∀ (types : List SqlType) (n : ℕ),
    createColumns types n = .ok (freshColumns n types, n + types.length)
  | [], n => rfl
  | type :: types, n => by
      rw [createColumns, bind_ok (show createColumn type n = .ok (⟨n, type⟩, n + 1) from rfl),
        bind_ok (createColumns_eq types (n + 1)), pure_ok, freshColumns, List.length_cons]
      congr 2
      omega

@[simp] lemma length_freshColumns (n : ℕ) (types : List SqlType) :
    (freshColumns n types).length = types.length := by
  induction types generalizing n with
  | nil => rfl
  | cons type types ih => simp [freshColumns, ih]

@[simp] lemma map_type_freshColumns (n : ℕ) (types : List SqlType) :
    (freshColumns n types).map Column.type = types := by
  induction types generalizing n with
  | nil => rfl
  | cons type types ih => simp [freshColumns, ih]

lemma le_id_of_mem_freshColumns {n : ℕ} {types : List SqlType} {c : Column}
    (hc : c ∈ freshColumns n types) : n ≤ c.id := by
  induction types generalizing n with
  | nil => cases hc
  | cons type types ih =>
    rcases List.mem_cons.mp hc with rfl | hc
    · exact le_refl _
    · have := ih hc
      omega

lemma nodup_freshColumns (n : ℕ) (types : List SqlType) : (freshColumns n types).Nodup := by
  induction types generalizing n with
  | nil => exact .nil
  | cons type types ih =>
    refine List.nodup_cons.mpr ⟨fun hmem => ?_, ih (n + 1)⟩
    have hle : n + 1 ≤ n := le_id_of_mem_freshColumns hmem
    omega

/-- The columns were made before the number. -/
def Below (n : ℕ) (columns : List Column) : Prop := ∀ c ∈ columns, c.id < n

lemma Below.mono {n n' : ℕ} {columns : List Column} (h : Below n columns) (hn : n ≤ n') :
    Below n' columns := fun c hc => (h c hc).trans_le hn

lemma Below.disjoint {n : ℕ} {columns : List Column} (h : Below n columns) (types : List SqlType) :
    columns.Disjoint (freshColumns n types) := by
  intro c hc hfresh
  have := h c hc
  have := le_id_of_mem_freshColumns hfresh
  omega

/-! ### Columns read -/

lemma mem_columnsRead {exprs : List Expr} {c : Column} :
    c ∈ exprs.foldr (fun e read => e.columns ∪ read) [] ↔ ∃ e ∈ exprs, c ∈ e.columns := by
  induction exprs with
  | nil => simp
  | cons e exprs ih => simp [ih]

@[simp] lemma mem_appendColumnsRead {exprs : List Expr} {columns : List Column} {c : Column} :
    c ∈ appendColumnsRead exprs columns ↔ c ∈ columns ∨ ∃ e ∈ exprs, c ∈ e.columns := by
  rw [appendColumnsRead, List.mem_append, List.mem_filter, mem_columnsRead]
  by_cases hc : c ∈ columns <;> simp [hc]

lemma nodup_appendColumnsRead {exprs : List Expr} {columns : List Column} (h : columns.Nodup) :
    (appendColumnsRead exprs columns).Nodup := by
  have hread : (exprs.foldr (fun e read => e.columns ∪ read) []).Nodup := by
    induction exprs with
    | nil => exact .nil
    | cons e exprs ih => exact List.Nodup.union _ ih
  refine List.nodup_append.mpr ⟨h, hread.filter _, fun c hc d hd heq => ?_⟩
  rw [List.mem_filter] at hd
  exact of_decide_eq_true hd.2 (heq ▸ hc)

/-- Each item of a list is paired with one of the other. -/
lemma exists_mem_zip {α β : Type} : ∀ {l : List α} {l' : List β} {a : α}, l.length = l'.length →
    a ∈ l → ∃ b ∈ l', (a, b) ∈ l.zip l'
  | _ :: l, b :: l', a, hlength, ha => by
      rcases List.mem_cons.mp ha with rfl | ha
      · exact ⟨b, List.mem_cons_self, List.mem_cons_self⟩
      · obtain ⟨b', hb', hmem⟩ := exists_mem_zip (Nat.succ.inj hlength) ha
        exact ⟨b', List.mem_cons_of_mem _ hb', List.mem_cons_of_mem _ hmem⟩

/-! ### Substitutions -/

namespace PlanSubstitutions

variable {R : Column → Column → Prop}

/-- A substituted column has its replacement. -/
lemma lookup_zip : ∀ {sources replacements : List Column} {c : Column},
    List.Forall₂ R sources replacements → c ∈ sources →
      ∃ d ∈ replacements, (sources.zip replacements).lookup c = some d ∧ R c d
  | source :: sources, replacement :: replacements, c, h, hc => by
      obtain ⟨hR, h⟩ := List.forall₂_cons.mp h
      by_cases heq : c = source
      · exact ⟨replacement, List.mem_cons_self, by simp [heq], heq ▸ hR⟩
      · obtain ⟨d, hd, hlookup, hR⟩ :=
          lookup_zip h ((List.mem_cons.mp hc).resolve_left heq)
        refine ⟨d, List.mem_cons_of_mem _ hd, ?_, hR⟩
        rw [List.zip_cons_cons, List.lookup_cons, beq_eq_false_iff_ne.mpr heq]
        exact hlookup

/-- A column that is not substituted stays. -/
lemma lookup_eq_none {substitutions : PlanSubstitutions} {c : Column}
    (hc : c ∉ substitutions.map Prod.fst) : substitutions.lookup c = none := by
  induction substitutions with
  | nil => rfl
  | cons p substitutions ih =>
    obtain ⟨source, replacement⟩ := p
    obtain ⟨hne, hc⟩ := not_or.mp (fun h => hc (List.mem_cons.mpr h))
    rw [List.lookup_cons, beq_eq_false_iff_ne.mpr hne]
    exact ih hc

/-- Substitutions for columns that have none yet are added one after the other. -/
lemma addAll_eq : ∀ {sources replacements : List Column} (substitutions : PlanSubstitutions),
    sources.Nodup → sources.Disjoint (substitutions.map Prod.fst) →
      substitutions.addAll sources replacements = .ok (substitutions ++ sources.zip replacements)
  | [], _, _, _, _ => by simp [addAll]
  | _ :: _, [], _, _, _ => by simp [addAll]
  | source :: sources, replacement :: replacements, substitutions, hnodup, hdisjoint => by
      obtain ⟨hsource, hnodup⟩ := List.nodup_cons.mp hnodup
      obtain ⟨hfirst, hdisjoint⟩ := List.disjoint_cons_left.mp hdisjoint
      have hadd : substitutions.add source replacement =
          .ok (substitutions ++ [(source, replacement)]) := by
        rw [add, lookup_eq_none hfirst]
      have hrest : sources.Disjoint ((substitutions ++ [(source, replacement)]).map Prod.fst) := by
        simp only [List.map_append, List.map_cons, List.map_nil, List.disjoint_append_right]
        exact ⟨hdisjoint, by simpa using hsource⟩
      change (substitutions.add source replacement >>= fun s => s.addAll sources replacements) = _
      rw [hadd]
      change (substitutions ++ [(source, replacement)]).addAll sources replacements = _
      rw [addAll_eq _ hnodup hrest, List.zip_cons_cons, List.append_assoc, List.singleton_append]

/-- Where replacements are not replaced in turn, one round is enough. -/
lemma apply_eq {substitutions : PlanSubstitutions} {e : Expr}
    (h : ∀ c ∈ e.columns, substitutions.target (substitutions.target c) = substitutions.target c) :
    substitutions.apply e = .ok (replaceColumns substitutions.target e) := by
  have hstable : replaceColumns substitutions.target (replaceColumns substitutions.target e) =
      replaceColumns substitutions.target e := by
    rw [replaceColumns_replaceColumns]
    exact replaceColumns_congr e h
  rw [apply, applyWithin]
  split
  · rename_i heq
    rw [heq]
  · rename_i hne
    cases substitutions with
    | nil => exact absurd (replaceColumns_id e) hne
    | cons p substitutions =>
      rw [List.length_cons, applyWithin, if_pos hstable]

end PlanSubstitutions

/-! ### The columns of the hop -/

namespace Lowering.HopColumns

variable {hopColumns : List Column}

/-- The values and the collected columns are new sources from the hop, none of them twice. -/
lemma collect_nodup (pairs : List (Column × Column)) (seen : List Column) :
    ((collect hopColumns pairs seen).values ++ (collect hopColumns pairs seen).collected).Nodup ∧
      ∀ c ∈ (collect hopColumns pairs seen).values ++ (collect hopColumns pairs seen).collected,
        c ∈ hopColumns ∧ c ∉ seen := by
  induction pairs generalizing seen with
  | nil => simp [collect]
  | cons p rest ih =>
    obtain ⟨source, output⟩ := p
    rw [collect]
    split
    · exact ih seen
    · rename_i hnew
      obtain ⟨hhop, hseen⟩ := not_or.mp hnew
      obtain ⟨hnodup, hmem⟩ := ih (source :: seen)
      have hfresh : source ∉ (collect hopColumns rest (source :: seen)).values ++
          (collect hopColumns rest (source :: seen)).collected :=
        fun h => (hmem source h).2 List.mem_cons_self
      have hrest (c : Column) (hc : c = source ∨ c ∈ (collect hopColumns rest
          (source :: seen)).values ++ (collect hopColumns rest (source :: seen)).collected) :
          c ∈ hopColumns ∧ c ∉ seen := by
        rcases hc with rfl | hc
        · exact ⟨Decidable.not_not.mp hhop, hseen⟩
        · exact ⟨(hmem c hc).1, fun h => (hmem c hc).2 (List.mem_cons_of_mem _ h)⟩
      dsimp only
      split
      · exact ⟨List.nodup_cons.mpr ⟨hfresh, hnodup⟩, fun c hc => hrest c (List.mem_cons.mp hc)⟩
      · refine ⟨List.nodup_middle.mpr (List.nodup_cons.mpr ⟨hfresh, hnodup⟩), fun c hc => ?_⟩
        exact hrest c (List.mem_cons.mp (List.perm_middle.mem_iff.mp hc))

/-- Each source from the hop is a value or collected. -/
lemma mem_collect {pairs : List (Column × Column)} {seen : List Column} {source output : Column}
    (hmem : (source, output) ∈ pairs) (hhop : source ∈ hopColumns) (hseen : source ∉ seen) :
    source ∈ (collect hopColumns pairs seen).values ++
      (collect hopColumns pairs seen).collected := by
  induction pairs generalizing seen with
  | nil => cases hmem
  | cons p rest ih =>
    obtain ⟨source', output'⟩ := p
    rw [collect]
    split
    · rename_i hold
      rcases List.mem_cons.mp hmem with heq | hmem
      · obtain ⟨rfl, rfl⟩ := Prod.mk.inj heq
        exact absurd hold (by simp [hhop, hseen])
      · exact ih hmem hseen
    · have hrest : source = source' ∨ source ∈ (collect hopColumns rest (source' :: seen)).values ++
          (collect hopColumns rest (source' :: seen)).collected := by
        by_cases heq : source = source'
        · exact .inl heq
        · refine .inr (ih ?_ (by simp [heq, hseen]))
          exact (List.mem_cons.mp hmem).resolve_left fun h => heq (Prod.mk.inj h).1
      dsimp only
      split
      · exact List.mem_cons.mpr hrest
      · exact List.perm_middle.mem_iff.mpr (List.mem_cons.mpr hrest)

variable (hopColumns) in
/-- A value has an output of its own type, and a collected column of the hop one of another, whose
type is the type of its array. -/
lemma collect_types (pairs : List (Column × Column)) (seen : List Column) :
    (∀ c ∈ (collect hopColumns pairs seen).values,
      ∃ output, (c, output) ∈ pairs ∧ output.type = c.type) ∧
    List.Forall₂ (fun c type => c ∈ hopColumns ∧
        ∃ output, (c, output) ∈ pairs ∧ output.type = type ∧ type ≠ c.type)
      (collect hopColumns pairs seen).collected (collect hopColumns pairs seen).arrayTypes := by
  induction pairs generalizing seen with
  | nil => exact ⟨by simp [collect], .nil⟩
  | cons p rest ih =>
    obtain ⟨source, output⟩ := p
    have hrest (seen : List Column) : (∀ c ∈ (collect hopColumns rest seen).values,
        ∃ output', (c, output') ∈ (source, output) :: rest ∧ output'.type = c.type) ∧
        List.Forall₂ (fun c type => c ∈ hopColumns ∧
          ∃ output', (c, output') ∈ (source, output) :: rest ∧ output'.type = type ∧ type ≠ c.type)
          (collect hopColumns rest seen).collected (collect hopColumns rest seen).arrayTypes := by
      refine ⟨fun c hc => ?_, (ih seen).2.imp fun c type h => ?_⟩
      · obtain ⟨output', hmem, htype⟩ := (ih seen).1 c hc
        exact ⟨output', List.mem_cons_of_mem _ hmem, htype⟩
      · obtain ⟨hhop, output', hmem, h⟩ := h
        exact ⟨hhop, output', List.mem_cons_of_mem _ hmem, h⟩
    rw [collect]
    split
    · exact hrest seen
    · rename_i hnew
      have hhop := Decidable.not_not.mp (not_or.mp hnew).1
      dsimp only
      split
      · rename_i htype
        refine ⟨fun c hc => ?_, (hrest _).2⟩
        rcases List.mem_cons.mp hc with rfl | hc
        · exact ⟨output, List.mem_cons_self, htype⟩
        · exact (hrest _).1 c hc
      · rename_i htype
        exact ⟨(hrest _).1, .cons ⟨hhop, output, List.mem_cons_self, rfl, htype⟩ (hrest _).2⟩

end Lowering.HopColumns

/-! ### States -/

/-- A plan depends only on the states it reads. -/
lemma Node.rows_congr (engine : Engine) (tables : ℕ → Multiset Row) (node : Node) :
    ∀ {states states' : States}, (∀ s ∈ node.requiredStates, states s.1 = states' s.1) →
      node.rows engine tables states = node.rows engine tables states' := by
  induction node with
  | scan table outputColumns => exact fun _ => rfl
  | project input exprs outputColumns ih =>
    intro states states' h
    rw [Node.rows, Node.rows, ih h]
  | filter input predicates ih =>
    intro states states' h
    rw [Node.rows, Node.rows, ih h]
  | join left right leftKeys rightKeys outputColumns ihl ihr =>
    intro states states' h
    have hleft := ihl fun s hs => h s (List.mem_union_iff.mpr (.inl hs))
    have hright := ihr fun s hs => h s (List.mem_union_iff.mpr (.inr hs))
    rw [Node.rows, Node.rows, hleft, hright]
  | unionAll left right leftColumns rightColumns outputColumns ihl ihr =>
    intro states states' h
    have hleft := ihl fun s hs => h s (List.mem_union_iff.mpr (.inl hs))
    have hright := ihr fun s hs => h s (List.mem_union_iff.mpr (.inr hs))
    rw [Node.rows, Node.rows, hleft, hright]
  | workingTable name stateColumns outputColumns =>
    intro states states' h
    rw [Node.rows, Node.rows, h (name, stateColumns) (by simp [Node.requiredStates])]
  | fixedPoint anchor step name outputColumns sourceColumns maxIterations failAtBound iha ihs =>
    intro states states' h
    have hstep (delta : Multiset Row) : step.rows engine tables (states.bind name delta) =
        step.rows engine tables (states'.bind name delta) := by
      refine ihs fun s hs => ?_
      rw [States.bind, States.bind]
      split
      · rfl
      · rename_i hne
        exact h s (List.mem_filter.mpr ⟨List.mem_union_iff.mpr (.inr hs), decide_eq_true hne⟩)
    simp only [Node.rows, hstep]

/-- A plan that reads no state has the same rows everywhere. -/
lemma Node.rows_closed (engine : Engine) (tables : ℕ → Multiset Row) {node : Node}
    (h : node.requiredStates = []) (states states' : States) :
    node.rows engine tables states = node.rows engine tables states' :=
  Node.rows_congr engine tables node (by simp [h])

/-- A state a plan requires is read by a node of it. -/
lemma Node.countStateReads_pos {node : Node} {name : ℕ} {columns : List Column}
    (h : (name, columns) ∈ node.requiredStates) : 0 < node.countStateReads name := by
  induction node with
  | scan table outputColumns => cases h
  | project input exprs outputColumns ih => exact ih h
  | filter input predicates ih => exact ih h
  | join left right leftKeys rightKeys outputColumns ihl ihr =>
    rw [Node.countStateReads]
    rcases List.mem_union_iff.mp h with h | h
    · have := ihl h
      omega
    · have := ihr h
      omega
  | unionAll left right leftColumns rightColumns outputColumns ihl ihr =>
    rw [Node.countStateReads]
    rcases List.mem_union_iff.mp h with h | h
    · have := ihl h
      omega
    · have := ihr h
      omega
  | workingTable name' stateColumns outputColumns =>
    obtain ⟨rfl, -⟩ := Prod.mk.inj (List.mem_singleton.mp h)
    simp [Node.countStateReads]
  | fixedPoint anchor step name' outputColumns sourceColumns maxIterations failAtBound iha ihs =>
    obtain ⟨h, hne⟩ := List.mem_filter.mp h
    rw [Node.countStateReads, if_neg fun heq => of_decide_eq_true hne heq.symm]
    rcases List.mem_union_iff.mp h with h | h
    · have := iha h
      omega
    · have := ihs h
      omega

/-- A state no node reads is not required. -/
lemma Node.countStateReads_eq_zero {node : Node} {name : ℕ}
    (h : ∀ columns, (name, columns) ∉ node.requiredStates) : node.countStateReads name = 0 := by
  induction node with
  | scan table outputColumns => rfl
  | project input exprs outputColumns ih => exact ih h
  | filter input predicates ih => exact ih h
  | join left right leftKeys rightKeys outputColumns ihl ihr =>
    rw [Node.countStateReads, ihl fun columns hc => h columns (List.mem_union_iff.mpr (.inl hc)),
      ihr fun columns hc => h columns (List.mem_union_iff.mpr (.inr hc))]
  | unionAll left right leftColumns rightColumns outputColumns ihl ihr =>
    rw [Node.countStateReads, ihl fun columns hc => h columns (List.mem_union_iff.mpr (.inl hc)),
      ihr fun columns hc => h columns (List.mem_union_iff.mpr (.inr hc))]
  | workingTable name' stateColumns outputColumns =>
    refine if_neg fun heq => h stateColumns ?_
    rw [heq, Node.requiredStates, List.mem_singleton]
  | fixedPoint anchor step name' outputColumns sourceColumns maxIterations failAtBound iha ihs =>
    rw [Node.countStateReads]
    split
    · rfl
    · rename_i hne
      have hrequired (columns : List Column) (hc : (name, columns) ∈ anchor.requiredStates ∨
          (name, columns) ∈ step.requiredStates) : False :=
        h columns (List.mem_filter.mpr
          ⟨List.mem_union_iff.mpr hc, decide_eq_true fun heq => hne heq.symm⟩)
      rw [iha fun columns hc => hrequired columns (.inl hc),
        ihs fun columns hc => hrequired columns (.inr hc)]

end Verax.LowerRepeat
