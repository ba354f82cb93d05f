import Verax.Ranking.PushdownAndPrunePass

/-!
# Rows under replacements of columns

A rewritten node delivers rows that agree with those of the node it stands for: what replaces a
column has the column's value (`Agrees`). Expressions, partitions, the order of rows and the numbers
of the ranking functions carry over.

* `eval_apply`: the value of an expression once its columns are replaced.
* `samePartition_simplifyPartitionKeys`, `sortLe_simplifyOrderKeys`: keys once simplified.
* `Filtered.of_agrees`: a filter of replaced conjuncts.
-/

namespace Verax.Ranking

open Lib Lib.Rankings Filters

variable {catalog : Catalog} (run : Run catalog)

/-! ### The order of rows -/

namespace Run

lemma compare_self (type : OrderType) (a : Value) : run.compare type a a = true := by
  have := run.total type a a
  rwa [Bool.or_self] at this

lemma sortLe_total : ∀ (keys : List SortKey) (r s : Row), run.sortLe keys r s || run.sortLe keys s r
  | [], _, _ => rfl
  | key :: keys, r, s => by
    have htotal := run.total key.orderType (r key.column) (s key.column)
    have ih := sortLe_total keys r s
    simp only [sortLe]
    cases hrs : run.compare key.orderType (r key.column) (s key.column) <;>
      cases hsr : run.compare key.orderType (s key.column) (r key.column) <;>
      simp_all

lemma sortLe_cons_eq_true {key : SortKey} {keys : List SortKey} {r s : Row} :
    run.sortLe (key :: keys) r s = true ↔
      run.compare key.orderType (r key.column) (s key.column) = true ∧
        (run.compare key.orderType (s key.column) (r key.column) = true →
          run.sortLe keys r s = true) := by
  rw [sortLe]
  split_ifs <;> simp_all

lemma sortLe_trans : ∀ (keys : List SortKey) (r s t : Row), run.sortLe keys r s → run.sortLe keys s t →
    run.sortLe keys r t
  | [], _, _, _, _, _ => rfl
  | key :: keys, r, s, t, hrs, hst => by
    rw [sortLe_cons_eq_true] at hrs hst ⊢
    refine ⟨run.trans _ _ _ _ hrs.1 hst.1, fun htr => ?_⟩
    have hsr := run.trans _ _ _ _ hst.1 htr
    have hts := run.trans _ _ _ _ htr hrs.1
    exact sortLe_trans keys r s t (hrs.2 hsr) (hst.2 hts)

/-- Rows in the order of some keys are in the order of the first of them. -/
lemma sortLe_of_isPrefix {keys keys' : List SortKey} (h : keys <+: keys') {r s : Row}
    (hle : run.sortLe keys' r s = true) : run.sortLe keys r s = true := by
  obtain ⟨rest, rfl⟩ := h
  induction keys with
  | nil => rfl
  | cons key keys ih =>
    rw [List.cons_append, sortLe_cons_eq_true] at hle
    exact (run.sortLe_cons_eq_true).mpr ⟨hle.1, fun h => ih (hle.2 h)⟩

/-- The order depends on the values of the keys. -/
lemma sortLe_congr {keys : List SortKey} {r r' s s' : Row}
    (h : ∀ key ∈ keys, r key.column = r' key.column ∧ s key.column = s' key.column) :
    run.sortLe keys r s = run.sortLe keys r' s' := by
  induction keys with
  | nil => rfl
  | cons key keys ih =>
    obtain ⟨hr, hs⟩ := h key List.mem_cons_self
    rw [sortLe, sortLe, hr, hs, ih fun key hkey => h key (List.mem_cons_of_mem _ hkey)]

/-- A key on which the rows are peers orders nothing. -/
lemma sortLe_cons_of_peers {key : SortKey} {keys : List SortKey} {r s : Row}
    (hrs : run.compare key.orderType (r key.column) (s key.column) = true)
    (hsr : run.compare key.orderType (s key.column) (r key.column) = true) :
    run.sortLe (key :: keys) r s = run.sortLe keys r s := by
  rw [sortLe, if_pos hrs, if_pos hsr]

/-- Keys on which the rows are known to be peers can be dropped. -/
lemma sortLe_dropFromSortKeys {r s : Row} : ∀ {seen : List Column} {keys : List SortKey},
    (∀ c ∈ seen, ∀ type, run.compare type (r c) (s c) = true ∧ run.compare type (s c) (r c) = true) →
      run.sortLe (dropFromSortKeys seen keys) r s = run.sortLe keys r s
  | _, [], _ => rfl
  | seen, key :: keys, hseen => by
    rw [dropFromSortKeys]
    split_ifs with hmem
    · obtain ⟨hrs, hsr⟩ := hseen _ hmem key.orderType
      rw [sortLe_dropFromSortKeys hseen, run.sortLe_cons_of_peers hrs hsr]
    · rw [sortLe, sortLe]
      split_ifs with hrs hsr
      · refine sortLe_dropFromSortKeys fun c hc type => ?_
        rcases List.mem_cons.mp hc with rfl | hc
        · exact ⟨run.peers _ _ _ _ hrs hsr, run.peers _ _ _ _ hsr hrs⟩
        · exact hseen c hc type
      · rfl
      · rfl

end Run

lemma samePartition_eq_true {keys : List Column} {r s : Row} :
    samePartition keys r s = true ↔ ∀ c ∈ keys, r c = s c := by
  simp [samePartition]

lemma samePartition_nil (r s : Row) : samePartition [] r s = true := rfl

lemma partitions (keys : List Column) : Partitions (samePartition keys) where
  refl _ := samePartition_eq_true.mpr fun _ _ => rfl
  symm _ _ h := samePartition_eq_true.mpr fun c hc => (samePartition_eq_true.mp h c hc).symm
  trans _ _ _ hrs hst := samePartition_eq_true.mpr fun c hc =>
    (samePartition_eq_true.mp hrs c hc).trans (samePartition_eq_true.mp hst c hc)

/-! ### Replaced columns -/

namespace Substitutions

variable (σ : Substitutions)

/-- The value of what replaces a column. -/
def value (row : Row) (c : Column) : Value :=
  match σ.replacement c with
  | .column d => row d
  | .literal value _ => value

lemma value_column {row : Row} {c d : Column} (h : σ.replacement c = .column d) :
    σ.value row c = row d := by rw [value, h]

lemma type_apply (e : Expr) : (σ.apply e).type = e.type := by
  cases e with
  | column c => rw [apply, σ.type_eq]; rfl
  | literal value type => rfl
  | field base name type => rfl
  | call name args type => rfl

lemma toList_applyAll (args : Exprs) : (σ.applyAll args).toList = args.toList.map σ.apply := by
  cases args with
  | nil => rfl
  | cons head tail => rw [applyAll, Exprs.toList, Exprs.toList, List.map_cons, toList_applyAll tail]

variable {σ}

lemma eval_replacement (engine : Engine) {r r' : Row} {c : Column} (h : σ.value r' c = r c) :
    engine.eval r' (σ.replacement c).expr = engine.eval r (.column c) := by
  have htype := σ.type_eq c
  rw [value] at h
  split at h
  case h_1 d heq =>
    rw [heq] at htype ⊢
    rw [Replacement.expr, Engine.eval, Engine.eval, h]
    exact congrArg (fun type => Value.conform type (r c)) htype
  case h_2 v type heq =>
    rw [heq] at htype ⊢
    rw [Replacement.expr, Engine.eval, Engine.eval, h]
    exact congrArg (fun type => Value.conform type (r c)) htype

mutual

/-- The value of an expression once its columns are replaced. -/
lemma eval_apply (engine : Engine) {r r' : Row} : (e : Expr) →
    (∀ c ∈ e.columns, σ.value r' c = r c) → engine.eval r' (σ.apply e) = engine.eval r e
  | .column c, h => eval_replacement engine (h c List.mem_cons_self)
  | .literal _ _, _ => rfl
  | .field base name type, h => by
    rw [apply, Engine.eval, Engine.eval, eval_apply engine base h]
  | .call name args type, h => by
    rw [apply, Engine.eval_call, Engine.eval_call, toList_applyAll, List.map_map, List.map_map,
      eval_applyAll engine args h]
    congr 2
    exact List.map_congr_left fun e _ => σ.type_apply e

lemma eval_applyAll (engine : Engine) {r r' : Row} : (args : Exprs) →
    (∀ c ∈ args.columns, σ.value r' c = r c) →
      args.toList.map (engine.eval r' ∘ σ.apply) = args.toList.map (engine.eval r)
  | .nil, _ => rfl
  | .cons head tail, h => by
    rw [Exprs.toList, List.map_cons, List.map_cons, Function.comp_apply,
      eval_apply engine head fun c hc => h c (List.mem_union_iff.mpr (.inl hc)),
      eval_applyAll engine tail fun c hc => h c (List.mem_union_iff.mpr (.inr hc))]

end

mutual

lemma apply_none : (e : Expr) → none.apply e = e
  | .column _ => rfl
  | .literal _ _ => rfl
  | .field base _ _ => by rw [apply, apply_none base]
  | .call _ args _ => by rw [apply, applyAll_none args]

lemma applyAll_none : (args : Exprs) → none.applyAll args = args
  | .nil => rfl
  | .cons head tail => by rw [applyAll, apply_none head, applyAll_none tail]

end

end Substitutions

/-- A condition depends on the columns it reads. -/
lemma accepts_congr (engine : Engine) {r s : Row} {e : Expr} (h : ∀ c ∈ e.columns, r c = s c) :
    engine.accepts r e ↔ engine.accepts s e := by
  have hvalue : ∀ c ∈ e.columns, Substitutions.none.value r c = s c := h
  rw [Engine.accepts, Engine.accepts, ← Substitutions.eval_apply engine e hvalue,
    Substitutions.apply_none]

/-- A row agrees with a row it stands for, on some columns. -/
def Agrees (σ : Substitutions) (columns : Set Column) (r r' : Row) : Prop :=
  ∀ c ∈ columns, σ.value r' c = r c

variable {σ : Substitutions} {columns : Set Column}

lemma Agrees.mono {columns' : Set Column} (hsub : columns' ⊆ columns) {r r' : Row}
    (h : Agrees σ columns r r') : Agrees σ columns' r r' :=
  fun c hc => h c (hsub hc)

lemma Agrees.accepts (engine : Engine) {r r' : Row} (h : Agrees σ columns r r') {e : Expr}
    (he : ∀ c ∈ e.columns, c ∈ columns) : engine.accepts r' (σ.apply e) ↔ engine.accepts r e := by
  rw [Engine.accepts, Engine.accepts, Substitutions.eval_apply engine e fun c hc => h c (he c hc)]

/-- Rows of one partition are so by the simplified keys. -/
lemma samePartition_simplifyPartitionKeys {keys : List Column} (hkeys : ∀ c ∈ keys, c ∈ columns)
    {r r' s s' : Row} (hr : Agrees σ columns r r') (hs : Agrees σ columns s s') :
    samePartition keys r s = samePartition (simplifyPartitionKeys σ keys) r' s' := by
  rw [Bool.eq_iff_iff, samePartition_eq_true, samePartition_eq_true]
  simp only [simplifyPartitionKeys, List.mem_eraseDups, List.mem_filterMap]
  constructor
  · rintro h d ⟨c, hc, hd⟩
    have hrc := hr c (hkeys c hc)
    have hsc := hs c (hkeys c hc)
    rw [Substitutions.column?] at hd
    split at hd
    case h_1 d' heq =>
      obtain rfl := Option.some.inj hd
      have hrd : σ.value r' c = r' d' := σ.value_column heq
      have hsd : σ.value s' c = s' d' := σ.value_column heq
      rw [← hrd, ← hsd, hrc, hsc, h c hc]
    case h_2 => cases hd
  · intro h c hc
    rw [← hr c (hkeys c hc), ← hs c (hkeys c hc), Substitutions.value, Substitutions.value]
    split
    case h_1 d heq => exact h d ⟨c, hc, by rw [Substitutions.column?, heq]⟩
    case h_2 => rfl

/-- Rows stand in the same order by keys that are replaced. -/
lemma sortLe_replaceSortKey {r r' s s' : Row} (hr : Agrees σ columns r r')
    (hs : Agrees σ columns s s') : ∀ {keys : List SortKey}, (∀ key ∈ keys, key.column ∈ columns) →
      run.sortLe (keys.filterMap (replaceSortKey σ)) r' s' = run.sortLe keys r s
  | [], _ => rfl
  | key :: keys, hkeys => by
    have ih := sortLe_replaceSortKey hr hs fun k hk => hkeys k (List.mem_cons_of_mem key hk)
    have hrc := hr _ (hkeys key List.mem_cons_self)
    have hsc := hs _ (hkeys key List.mem_cons_self)
    rw [Substitutions.value] at hrc hsc
    cases hreplacement : σ.replacement key.column with
    | column d =>
      simp only [hreplacement] at hrc hsc
      have hkey : replaceSortKey σ key = some ⟨d, key.orderType⟩ := by
        rw [replaceSortKey, Substitutions.column?, hreplacement]
        rfl
      rw [List.filterMap_cons_some hkey, Run.sortLe, Run.sortLe, hrc, hsc, ih]
    | literal value type =>
      simp only [hreplacement] at hrc hsc
      have hkey : replaceSortKey σ key = none := by
        rw [replaceSortKey, Substitutions.column?, hreplacement]
        rfl
      have hpeers := run.compare_self key.orderType value
      rw [List.filterMap_cons_none hkey, ih, run.sortLe_cons_of_peers (by rwa [← hrc, ← hsc])
        (by rwa [← hrc, ← hsc])]

/-- Rows of one partition stand in the same order by the simplified keys. -/
lemma sortLe_simplifyOrderKeys {keys : List SortKey} (hkeys : ∀ key ∈ keys, key.column ∈ columns)
    {r r' s s' : Row} (hr : Agrees σ columns r r') (hs : Agrees σ columns s s')
    {partitionKeys : List Column} (hsame : samePartition partitionKeys r' s' = true) :
    run.sortLe keys r s = run.sortLe (simplifyOrderKeys σ partitionKeys keys) r' s' := by
  rw [simplifyOrderKeys, run.sortLe_dropFromSortKeys, sortLe_replaceSortKey run hr hs hkeys]
  intro c hc type
  rw [samePartition_eq_true.mp hsame c hc]
  exact ⟨run.compare_self _ _, run.compare_self _ _⟩

/-! ### Filters -/

namespace Run

variable {run}

lemma Filtered.append {predicates : List Expr} {l k l' k' : List Row}
    (h : run.Filtered predicates l k) (h' : run.Filtered predicates l' k') :
    run.Filtered predicates (l ++ l') (k ++ k') := by
  induction h with
  | nil => exact h'
  | keep engine hengine haccepts _ ih => exact .keep engine hengine haccepts ih
  | drop engine hengine hrejects _ ih => exact .drop engine hengine hrejects ih

lemma Filtered.of_nil : ∀ l : List Row, run.Filtered [] l l
  | [] => .nil
  | _ :: l => by
    obtain ⟨engine, hengine⟩ := run.nonempty
    exact .keep engine hengine (by simp) (of_nil l)

lemma filtered_nil {l k : List Row} (h : run.Filtered [] l k) : k = l := by
  induction h with
  | nil => rfl
  | keep engine hengine haccepts _ ih => rw [ih]
  | drop engine hengine hrejects _ ih => exact absurd (by simp) hrejects

/-- Conjuncts that say the same of every row keep the same rows. -/
lemma Filtered.congr {ps qs : List Expr} {l k : List Row} (h : run.Filtered ps l k)
    (hiff : ∀ r ∈ l, ∀ engine ∈ run.engines,
      (∀ p ∈ ps, engine.accepts r p) ↔ ∀ q ∈ qs, engine.accepts r q) : run.Filtered qs l k := by
  induction h with
  | nil => exact .nil
  | keep engine hengine haccepts _ ih =>
    exact .keep engine hengine ((hiff _ List.mem_cons_self engine hengine).mp haccepts)
      (ih fun r hr => hiff r (List.mem_cons_of_mem _ hr))
  | drop engine hengine hrejects _ ih =>
    refine .drop engine hengine (fun h => hrejects ?_) (ih fun r hr => hiff r (List.mem_cons_of_mem _ hr))
    exact (hiff _ List.mem_cons_self engine hengine).mpr h

/-- Rows that fail a conjunct do not pass. -/
lemma Filtered.of_rejects {ps : List Expr} : ∀ {l : List Row},
    (∀ r ∈ l, ∀ engine ∈ run.engines, ¬∀ p ∈ ps, engine.accepts r p) → run.Filtered ps l []
  | [], _ => .nil
  | r :: l, h => by
    obtain ⟨engine, hengine⟩ := run.nonempty
    exact .drop engine hengine (h r List.mem_cons_self engine hengine)
      (of_rejects fun s hs => h s (List.mem_cons_of_mem r hs))

lemma Filtered.sublist {ps : List Expr} {l k : List Row} (h : run.Filtered ps l k) :
    k.Sublist l := by
  induction h with
  | nil => exact .slnil
  | keep _ _ _ _ ih => exact ih.cons_cons _
  | drop _ _ _ _ ih => exact ih.cons _

/-- The rows a filter drops, if its conditions have one value. -/
lemma Filtered.exists_dropped {ps : List Expr}
    (hps : ∀ p ∈ ps, catalog.containsNonDeterministic p = false) {l k : List Row}
    (h : run.Filtered ps l k) : ∃ dropped, l.Perm (k ++ dropped) ∧
      (∀ r ∈ k, ∀ engine ∈ run.engines, ∀ p ∈ ps, engine.accepts r p) ∧
      ∀ r ∈ dropped, ∀ engine ∈ run.engines, ¬∀ p ∈ ps, engine.accepts r p := by
  have hsame : ∀ e ∈ run.engines, ∀ e' ∈ run.engines, ∀ r, ∀ p ∈ ps,
      e.accepts r p → e'.accepts r p := by
    intro e he e' he' r p hp haccepts
    rwa [Engine.accepts, run.deterministic p (hps p hp) e' he' e he]
  induction h with
  | nil => exact ⟨[], .nil, nofun, nofun⟩
  | keep engine hengine haccepts _ ih =>
    obtain ⟨dropped, hperm, hk, hdropped⟩ := ih
    refine ⟨dropped, hperm.cons _, List.forall_mem_cons.mpr ⟨?_, hk⟩, hdropped⟩
    exact fun e he p hp => hsame engine hengine e he _ p hp (haccepts p hp)
  | drop engine hengine hrejects _ ih =>
    obtain ⟨dropped, hperm, hk, hdropped⟩ := ih
    refine ⟨_ :: dropped, (hperm.cons _).trans List.perm_middle.symm, hk,
      List.forall_mem_cons.mpr ⟨?_, hdropped⟩⟩
    exact fun e he h => hrejects fun p hp => hsame e he engine hengine _ p hp (h p hp)

/-- A filter of replaced conjuncts keeps rows that agree with those the conjuncts keep. -/
lemma Filtered.of_agrees {ps : List Expr} (hcolumns : ∀ p ∈ ps, ∀ c ∈ p.columns, c ∈ columns)
    {l l' k' : List Row} (hl : List.Forall₂ (Agrees σ columns) l l')
    (h : run.Filtered (ps.map σ.apply) l' k') :
    ∃ k, run.Filtered ps l k ∧ List.Forall₂ (Agrees σ columns) k k' := by
  have hiff : ∀ {r r' : Row}, Agrees σ columns r r' → ∀ engine : Engine,
      ((∀ p ∈ ps.map σ.apply, engine.accepts r' p) ↔ ∀ p ∈ ps, engine.accepts r p) := by
    intro r r' hr engine
    rw [List.forall_mem_map]
    exact forall₂_congr fun p hp => hr.accepts engine (hcolumns p hp)
  induction h generalizing l with
  | nil =>
    cases hl
    exact ⟨[], .nil, .nil⟩
  | keep engine hengine haccepts _ ih =>
    obtain _ | ⟨hr, hl⟩ := hl
    obtain ⟨k, hk, hagree⟩ := ih hl
    exact ⟨_, .keep engine hengine ((hiff hr engine).mp haccepts) hk, .cons hr hagree⟩
  | drop engine hengine hrejects _ ih =>
    obtain _ | ⟨hr, hl⟩ := hl
    obtain ⟨k, hk, hagree⟩ := ih hl
    exact ⟨k, .drop engine hengine (fun h => hrejects ((hiff hr engine).mpr h)) hk, hagree⟩

end Run

end Verax.Ranking
