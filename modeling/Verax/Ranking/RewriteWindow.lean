import Verax.Ranking.Soundness

/-!
# Rewriting a window

The node chosen for a window delivers the window's rows, as far as they are within the bound of the
fusion; the conjuncts and the bound above account for the rows left out.

* `makeTopNRowNumber_spec`, `makeRowNumber_spec`, `makeWindow_spec`: the nodes chosen.
* `rewriteWindow_sound`: the window under its conjuncts, or under a limit.
-/

namespace Verax.Ranking

open Lib Lib.Rankings Filters

variable {catalog : Catalog} {run : Run catalog}

/-! ### The nodes chosen -/

/-- A node delivers the rows of a window over the rows of its rewritten input, within a bound. -/
def Computes (run : Run catalog) (window : WindowKey) (bound : Option (RankFunction × ℕ+))
    (newInput : SimplifiedNode) (read kept : Set Column) (node : SimplifiedNode) : Prop :=
  ∀ out' ∈ run.Delivers true node.1, ∃ l' ∈ run.Delivers true newInput.1, ∀ l,
    List.Forall₂ (Agrees newInput.2 read) l l' → ∃ out, window.Ranks run bound l out ∧
      List.Forall₂ (Agrees node.2 kept) out out'

section computes

variable {window : WindowKey} {bound : Option (RankFunction × ℕ+)} {newInput : SimplifiedNode}
  {read kept : Set Column}

/-- The keys of a window are among the columns read. -/
def WindowKey.ReadsIn (window : WindowKey) (read : Set Column) : Prop :=
  (∀ c ∈ window.partitionKeys, c ∈ read) ∧ ∀ key ∈ window.orderKeys, key.column ∈ read

lemma keysAgree (run : Run catalog) (σ : Substitutions) (hreads : window.ReadsIn read) :
    KeysAgree run σ read window (simplifyPartitionKeys σ window.partitionKeys)
      (simplifyOrderKeys σ (simplifyPartitionKeys σ window.partitionKeys) window.orderKeys) := by
  intro r r' s s' hr hs
  have hsame := samePartition_simplifyPartitionKeys hreads.1 hr hs
  exact ⟨hsame, fun h => sortLe_simplifyOrderKeys run hreads.2 hr hs (hsame ▸ h)⟩

/-- A node that ranks the rows of the rewritten input by agreeing keys. -/
lemma computes_of_ranked {partitionKeys : List Column} {orderKeys : List SortKey}
    (hkeys : KeysAgree run newInput.2 read window partitionKeys orderKeys)
    (hnodup : (window.functions.map Prod.snd).Nodup) (functions : List (RankFunction × Column))
    (hnodup' : (functions.map Prod.snd).Nodup)
    (hkept : ∀ c ∈ kept, Kept newInput.2 read window functions c) {node : Node}
    (hnode : ∀ out' ∈ run.Delivers true node, ∃ l' ∈ run.Delivers true newInput.1,
      run.Ranked partitionKeys orderKeys functions bound l' out') :
    Computes run window bound newInput read kept (node, newInput.2) := by
  intro out' hout'
  obtain ⟨l', hl', hranked⟩ := hnode out' hout'
  refine ⟨l', hl', fun l hl => ?_⟩
  obtain ⟨out, hout, hagree⟩ := Ranked.of_agrees hkeys hnodup hnodup' hl hranked
  exact ⟨out, hout, hagree.imp fun r r' h => h.mono hkept⟩

/-- Rows of which a bound leaves out none, with numbers that are read off the rows themselves. -/
lemma ranked_of_within (run : Run catalog) (bound : Option (RankFunction × ℕ+))
    (partitionKeys : List Column) (orderKeys : List SortKey) (functions : List (RankFunction × Column))
    (hwithin : ∀ x, within (run.sortLe orderKeys) bound x = true) (f : Row → Row)
    (hf : ∀ x, numberRow (run.sortLe orderKeys) functions x = f x.2) (l : List Row) :
    run.Ranked partitionKeys orderKeys functions bound l (l.map f) := by
  obtain ⟨arranged, harranged, hpartitions⟩ := exists_arranged (samePartition partitionKeys)
    (run.sortLe_total orderKeys) (run.sortLe_trans orderKeys) l
  refine ⟨arranged, harranged, hpartitions, ?_⟩
  rw [List.filter_eq_self.mpr fun x _ => hwithin x, List.map_congr_left fun x _ => hf x]
  have hrows : (withEarlier (samePartition partitionKeys) [] arranged).map (fun x => f x.2) =
      arranged.map f := by
    calc (withEarlier (samePartition partitionKeys) [] arranged).map (fun x => f x.2)
        = ((withEarlier (samePartition partitionKeys) [] arranged).map Prod.snd).map f := by
          rw [List.map_map]
          rfl
      _ = arranged.map f := by rw [map_snd_withEarlier]
  rw [hrows]
  exact (harranged.map f).symm

/-- A window over no rows. -/
lemma computes_empty (hempty : newInput.1.isEmpty = true) (node : Node) :
    Computes run window bound newInput read kept (emptyResult catalog node) := by
  intro out' hout'
  obtain rfl : out' = [] := hout'
  refine ⟨[], nil_delivers_of_isEmpty hempty, fun l hl => ?_⟩
  cases hl
  exact ⟨[], ⟨[], .nil, .nil, .nil⟩, .nil⟩

/-- The rewritten input, for a window whose numbers are not read. -/
lemma computes_input {partitionKeys : List Column} {orderKeys : List SortKey}
    (hkeys : KeysAgree run newInput.2 read window partitionKeys orderKeys)
    (hwithin : ∀ x, within (run.sortLe orderKeys) bound x = true)
    (hnodup : (window.functions.map Prod.snd).Nodup)
    (hkept : ∀ c ∈ kept, Kept newInput.2 read window [] c) :
    Computes run window bound newInput read kept newInput := by
  refine computes_of_ranked hkeys hnodup [] List.nodup_nil hkept fun out' hout' =>
    ⟨out', hout', ?_⟩
  have hranked := ranked_of_within run bound partitionKeys orderKeys [] hwithin id (fun _ => rfl) out'
  rwa [List.map_id] at hranked

/-- Rows that all rank first are within every bound. -/
lemma within_of_peers {fn : RankFunction} (hfn : fn ≠ .rowNumber) (limit : ℕ+) (x : List Row × Row) :
    within (run.sortLe []) (some (fn, limit)) x = true := by
  have hvalue : fn.value (run.sortLe []) x.1 x.2 = 1 :=
    RankFunction.value_of_peers hfn (fun _ _ => rfl) x.1 x.2
  simp only [within, Option.all_some, hvalue, decide_eq_true_eq]
  exact limit.pos

/-- The rewritten input, for a window that ranks every row first. -/
lemma computes_first {σ : Substitutions} {input : Node} {partitionKeys : List Column} {fn : RankFunction} {column : Column}
    (hfn : fn ≠ .rowNumber) {limit : ℕ+}
    (hkeys : KeysAgree run σ read window partitionKeys [])
    (hfunctions : window.functions = [(fn, column)])
    (hkept : ∀ c ∈ kept, Kept σ read window [(fn, column)] c) :
    Computes run window (some (fn, limit)) (input, σ) read kept
      (input, σ.add column (rankValue 1)) := by
  have hpeers : ∀ x : List Row × Row, fn.value (run.sortLe []) x.1 x.2 = 1 := fun x =>
    RankFunction.value_of_peers hfn (fun _ _ => rfl) x.1 x.2
  intro out' hout'
  refine ⟨out', hout', fun l hl => ?_⟩
  have hranked := ranked_of_within run (some (fn, limit)) partitionKeys [] [(fn, column)]
    (fun x => ?_) (fun r => Function.update r column (rankValue 1)) (fun x => ?_) out'
  · obtain ⟨out, hout, hagree⟩ := Ranked.of_agrees hkeys (by rw [hfunctions]; simp) (by simp) hl
      hranked
    refine ⟨out, hout, ?_⟩
    rw [List.forall₂_map_right_iff] at hagree
    refine hagree.imp fun r r' h c hc => ?_
    rw [← h c (hkept c hc), Substitutions.value, Substitutions.value]
    simp only [Substitutions.add]
    cases hreplacement : σ.replacement c with
    | literal value type => rfl
    | column d =>
      by_cases hd : d = column
      · subst hd
        simp
      · simp [hd]
  · exact within_of_peers hfn limit x
  · simp only [numberRow, writeNumbers, hpeers x]

/-- Simplifying keys again parts rows no further. -/
lemma samePartition_simplifyPartitionKeys_simplify (σ : Substitutions) (keys : List Column)
    (r s : Row) : samePartition (simplifyPartitionKeys σ (simplifyPartitionKeys σ keys)) r s =
      samePartition (simplifyPartitionKeys σ keys) r s := by
  have hmem : ∀ d, d ∈ simplifyPartitionKeys σ (simplifyPartitionKeys σ keys) ↔
      d ∈ simplifyPartitionKeys σ keys := by
    intro d
    have hcolumn : ∀ {c d}, σ.column? c = some d → σ.column? d = some d := by
      intro c d h
      rw [Substitutions.column?] at h
      split at h
      case h_1 e heq =>
        obtain rfl := Option.some.inj h
        rw [Substitutions.column?, σ.resolved c e heq]
      case h_2 => cases h
    simp only [simplifyPartitionKeys, List.mem_eraseDups, List.mem_filterMap]
    constructor
    · rintro ⟨e, ⟨c, hc, hce⟩, hed⟩
      rw [hcolumn hce] at hed
      exact ⟨c, hc, hce.trans hed⟩
    · rintro ⟨c, hc, hcd⟩
      exact ⟨d, ⟨c, hc, hcd⟩, hcolumn hcd⟩
  rw [Bool.eq_iff_iff, samePartition_eq_true, samePartition_eq_true]
  simp only [hmem]

/-- A RowNumber numbers the rows of the partitions. -/
lemma makeRowNumber_spec {partitionKeys : List Column} {column : Column} (limit : Option ℕ+)
    {rankColumn : Option Column}
    (hkeys : KeysAgree run newInput.2 read window (simplifyPartitionKeys newInput.2 partitionKeys) [])
    (hfunctions : window.functions = [(.rowNumber, column)])
    (hkept : ∀ c ∈ kept, Kept newInput.2 read window (rankColumn.toList.map (.rowNumber, ·)) c) :
    Computes run window (limit.map (.rowNumber, ·)) newInput read kept
      (makeRowNumber catalog newInput partitionKeys limit rankColumn) := by
  have hnodup : (window.functions.map Prod.snd).Nodup := by rw [hfunctions]; simp
  have hnodup' : ((rankColumn.toList.map (RankFunction.rowNumber, ·)).map Prod.snd).Nodup := by
    cases rankColumn <;> simp
  unfold makeRowNumber
  simp only
  split_ifs with hempty hnone
  · exact computes_empty hempty _
  · obtain ⟨rfl, rfl⟩ := hnone
    exact computes_input hkeys (fun _ => rfl) hnodup hkept
  · exact computes_of_ranked hkeys hnodup _ hnodup' hkept fun out' hout' => hout'

/-- The node for a bounded ranking. -/
lemma makeTopNRowNumber_spec {fn : RankFunction} {column : Column} {limit : ℕ+}
    {rankColumn : Option Column} (hreads : window.ReadsIn read)
    (hfunctions : window.functions = [(fn, column)])
    (hrank : rankColumn = none ∨ rankColumn = some column)
    (hkept : ∀ c ∈ kept, Kept newInput.2 read window (rankColumn.toList.map (fn, ·)) c) :
    Computes run window (some (fn, limit)) newInput read kept (makeTopNRowNumber catalog newInput fn
      window.partitionKeys window.orderKeys limit rankColumn) := by
  have hnodup : (window.functions.map Prod.snd).Nodup := by rw [hfunctions]; simp
  have hnodup' : ((rankColumn.toList.map (fn, ·)).map Prod.snd).Nodup := by
    cases rankColumn <;> simp
  have hkeys := keysAgree run newInput.2 hreads
  unfold makeTopNRowNumber
  simp only
  split_ifs with hempty hunordered hrowNumber
  · exact computes_empty hempty _
  · subst hrowNumber
    rw [hunordered] at hkeys
    refine makeRowNumber_spec (some limit) (fun r r' s s' hr hs => ?_) hfunctions hkept
    rw [samePartition_simplifyPartitionKeys_simplify]
    exact hkeys r r' s s' hr hs
  · rw [hunordered] at hkeys
    rcases hrank with rfl | rfl
    · exact computes_input hkeys (within_of_peers hrowNumber limit) hnodup hkept
    · exact computes_first hrowNumber hkeys hfunctions hkept
  · exact computes_of_ranked hkeys hnodup _ hnodup' hkept fun out' hout' => hout'

/-- A window of the functions that are read. -/
lemma makeWindow_spec {functions : List (RankFunction × Column)} (hreads : window.ReadsIn read)
    (hnodup : (window.functions.map Prod.snd).Nodup) (hnodup' : (functions.map Prod.snd).Nodup)
    (hkept : ∀ c ∈ kept, Kept newInput.2 read window functions c) :
    Computes run window none newInput read kept (makeWindow catalog newInput functions
      window.partitionKeys window.orderKeys) := by
  unfold makeWindow
  simp only
  split_ifs with hempty
  · exact computes_empty hempty _
  · exact computes_of_ranked (keysAgree run newInput.2 hreads) hnodup _ hnodup' hkept
      fun out' hout' => hout'.1

end computes

/-! ### What the nodes chosen replace -/

/-- A node replaces columns as its rewritten input does, but for the rank column. -/
def Replaces (newInput : SimplifiedNode) (rankColumn : Option Column) (node : SimplifiedNode) : Prop :=
  node.1.isEmpty = true ∧ node.2 = .none ∨ node.2 = newInput.2 ∨
    ∃ column value, rankColumn = some column ∧ node.2 = newInput.2.add column value

section replaces

variable (catalog) (newInput : SimplifiedNode) (rankColumn : Option Column)

lemma replaces_makeRowNumber (partitionKeys : List Column) (limit : Option ℕ+) :
    Replaces newInput rankColumn
      (makeRowNumber catalog newInput partitionKeys limit rankColumn) := by
  unfold makeRowNumber
  simp only
  split_ifs
  · exact .inl ⟨rfl, rfl⟩
  · exact .inr (.inl rfl)
  · exact .inr (.inl rfl)

lemma replaces_makeTopNRowNumber (fn : RankFunction) (partitionKeys : List Column)
    (orderKeys : List SortKey) (limit : ℕ+) : Replaces newInput rankColumn
      (makeTopNRowNumber catalog newInput fn partitionKeys orderKeys limit rankColumn) := by
  unfold makeTopNRowNumber
  simp only
  split_ifs
  · exact .inl ⟨rfl, rfl⟩
  · exact replaces_makeRowNumber ..
  · cases rankColumn with
    | none => exact .inr (.inl rfl)
    | some column => exact .inr (.inr ⟨column, _, rfl, rfl⟩)
  · exact .inr (.inl rfl)

lemma replaces_makeWindow (functions : List (RankFunction × Column)) (partitionKeys : List Column)
    (orderKeys : List SortKey) : Replaces newInput none
      (makeWindow catalog newInput functions partitionKeys orderKeys) := by
  unfold makeWindow
  simp only
  split_ifs
  · exact .inl ⟨rfl, rfl⟩
  · exact .inr (.inl rfl)

variable {newInput rankColumn} {node : SimplifiedNode}

lemma Replaces.extends (h : Replaces newInput rankColumn node) (hempty : node.1.isEmpty = false) :
    node.2.Extends newInput.2 := by
  rcases h with ⟨h, -⟩ | h | ⟨column, value, -, h⟩
  · rw [h] at hempty
    cases hempty
  · rw [h]
    exact newInput.2.extends_self
  · rw [h]
    exact newInput.2.extends_add column value

lemma Replaces.scoped (h : Replaces newInput rankColumn node) {scope : Set Column}
    (hscope : newInput.2.Scoped scope) (hcolumn : ∀ c, rankColumn = some c → c ∈ scope) :
    node.2.Scoped scope := by
  rcases h with ⟨-, h⟩ | h | ⟨column, value, hrank, h⟩
  · rw [h]
    exact Substitutions.scoped_none
  · rw [h]
    exact hscope
  · rw [h]
    exact hscope.add (hcolumn column hrank) value

end replaces

/-! ### The window under the conjuncts that stay -/

/-- A node delivers the rows of a window within a bound that pass the conjuncts that stay above. -/
def Answers (run : Run catalog) (window : WindowKey) (bound : Option (RankFunction × ℕ+))
    (newInput : SimplifiedNode) (read kept : Set Column) (blocked : List Expr)
    (node : SimplifiedNode) : Prop :=
  ∀ out' ∈ run.Delivers true node.1, ∃ l' ∈ run.Delivers true newInput.1, ∀ l,
    List.Forall₂ (Agrees newInput.2 read) l l' → ∃ ranked, window.Ranks run bound l ranked ∧
      ∃ out, run.Filtered blocked ranked out ∧ List.Forall₂ (Agrees node.2 kept) out out'

section answers

variable {window : WindowKey} {bound : Option (RankFunction × ℕ+)} {newInput : SimplifiedNode}
  {read kept : Set Column} {blocked : List Expr}

/-- A filter over a node that computes the window. -/
lemma Computes.filter {node : SimplifiedNode}
    (h : Computes run window bound newInput read kept node)
    (hblocked : ∀ p ∈ blocked, ∀ c ∈ p.columns, c ∈ kept) {l₁ out' : List Row}
    (hl₁ : l₁ ∈ run.Delivers true node.1) (hfilter : run.Filtered (blocked.map node.2.apply) l₁ out') :
    ∃ l' ∈ run.Delivers true newInput.1, ∀ l, List.Forall₂ (Agrees newInput.2 read) l l' →
      ∃ ranked, window.Ranks run bound l ranked ∧
        ∃ out, run.Filtered blocked ranked out ∧ List.Forall₂ (Agrees node.2 kept) out out' := by
  obtain ⟨l', hl', hranks⟩ := h l₁ hl₁
  refine ⟨l', hl', fun l hl => ?_⟩
  obtain ⟨ranked, hranked, hagree⟩ := hranks l hl
  obtain ⟨out, hout, houtAgree⟩ := Run.Filtered.of_agrees hblocked hagree hfilter
  exact ⟨ranked, hranked, out, hout, houtAgree⟩

lemma answers_maybeWrapFilter {node : SimplifiedNode}
    (h : Computes run window bound newInput read kept node)
    (hblocked : ∀ p ∈ blocked, ∀ c ∈ p.columns, c ∈ kept) :
    Answers run window bound newInput read kept blocked
      (maybeWrapFilter node.1 (blocked.map node.2.apply), node.2) := by
  intro out' hout'
  obtain ⟨l₁, hl₁, hfilter⟩ := delivers_maybeWrapFilter hout'
  exact h.filter hblocked hl₁ hfilter

/-- The conjuncts may be replaced already. -/
lemma answers_finishSimplifiedNode {node : SimplifiedNode} {blocked' : List Expr}
    (h : Computes run window bound newInput read kept node)
    (hblocked : ∀ p ∈ blocked, ∀ c ∈ p.columns, c ∈ kept)
    (hsame : node.1.isEmpty = false → blocked'.map node.2.apply = blocked.map node.2.apply) :
    Answers run window bound newInput read kept blocked (finishSimplifiedNode node blocked') := by
  intro out' hout'
  obtain ⟨l₁, hl₁, hfilter, hagree⟩ := delivers_finishSimplifiedNode hout'
  have hfiltered : run.Filtered (blocked.map node.2.apply) l₁ out' := by
    cases hempty : node.1.isEmpty with
    | true =>
      obtain rfl := isEmpty_delivers hempty hl₁
      cases hfilter
      exact .nil
    | false => rwa [← hsame hempty]
  obtain ⟨l', hl', hanswer⟩ := h.filter hblocked hl₁ hfiltered
  refine ⟨l', hl', fun l hl => ?_⟩
  obtain ⟨ranked, hranked, out, hout, houtAgree⟩ := hanswer l hl
  exact ⟨ranked, hranked, out, hout, hagree kept out houtAgree⟩

lemma Answers.finish {node : SimplifiedNode}
    (h : Answers run window bound newInput read kept blocked node) :
    Answers run window bound newInput read kept blocked (finishSimplifiedNode node []) := by
  intro out' hout'
  obtain ⟨l₁, hl₁, hfilter, hagree⟩ := delivers_finishSimplifiedNode hout'
  obtain rfl := Run.filtered_nil hfilter
  obtain ⟨l', hl', hanswer⟩ := h _ hl₁
  refine ⟨l', hl', fun l hl => ?_⟩
  obtain ⟨ranked, hranked, out, hout, houtAgree⟩ := hanswer l hl
  exact ⟨ranked, hranked, out, hout, hagree kept out houtAgree⟩

end answers

/-! ### The choice of the node -/

section choice

variable {input : Node} {window : WindowKey} {context : Context} {blocked pushable : List Expr}
  {fusion : Option RankFusion} {newInput : SimplifiedNode}

/-- The bound of a fusion. -/
def boundOf (fusion : Option RankFusion) : Option (RankFunction × ℕ+) :=
  fusion.bind fun f => f.limit.map (f.rankFunction, ·)

/-- The parameters of a window over its input. -/
structure WindowKey.Over (window : WindowKey) (catalog : Catalog) (input : Node) : Prop where
  nodup : (window.functions.map Prod.snd).Nodup
  bigint : ∀ f ∈ window.functions, f.2.type = .bigint
  fresh : ∀ f ∈ window.functions, f.2 ∉ input.scope catalog
  partitionKeys : ∀ c ∈ window.partitionKeys, c ∈ input.outputColumns catalog
  orderKeys : ∀ key ∈ window.orderKeys, key.column ∈ input.outputColumns catalog

lemma WindowKey.Over.notMem (h : window.Over catalog input) {c : Column}
    (hc : c ∈ input.scope catalog) : c ∉ window.functions.map Prod.snd := by
  intro hmem
  obtain ⟨f, hf, rfl⟩ := List.mem_map.mp hmem
  exact h.fresh f hf hc

lemma WindowKey.Over.wellFormed (h : window.Over catalog input) : window.WellFormed where
  nodup := h.nodup
  partitionKeys c hc := h.notMem (input.mem_scope catalog (h.partitionKeys c hc))
  orderKeys key hkey := h.notMem (input.mem_scope catalog (h.orderKeys key hkey))

/-- The columns of the input that are read to compute a window. -/
def windowReads (catalog : Catalog) (input : Node) (window : WindowKey) (context : Context)
    (pushable blocked : List Expr) : Set Column :=
  (windowChildContext window context pushable blocked).reads catalog input

/-- The columns of a window that are read above, by the conjuncts that stay too. -/
def windowKept (catalog : Catalog) (input : Node) (window : WindowKey) (context : Context)
    (blocked : List Expr) : Set Column :=
  {c | c ∈ context.required ++ columnsOf blocked ∧
    c ∈ input.outputColumns catalog ++ window.functions.map Prod.snd}

lemma readsIn_windowReads (context : Context) (pushable blocked : List Expr)
    (h : window.Over catalog input) :
    window.ReadsIn (windowReads catalog input window context pushable blocked) := by
  refine ⟨fun c hc => ⟨?_, h.partitionKeys c hc⟩, fun key hkey => ⟨?_, h.orderKeys key hkey⟩⟩
  · simp [windowChildContext, hc]
  · simp only [windowChildContext, List.mem_append, List.mem_map]
    exact .inl (.inl (.inr ⟨key, hkey, rfl⟩))

/-- What a node keeps that writes the numbers that are read. -/
lemma kept_of_mem (context : Context) (pushable blocked : List Expr)
    (h : window.Over catalog input) {σ : Substitutions} (hscope : σ.Scoped (input.scope catalog))
    (functions : List (RankFunction × Column)) (hsub : functions ⊆ window.functions)
    (hread : ∀ f ∈ window.functions, f.2 ∈ context.required ++ columnsOf blocked → f ∈ functions) :
    ∀ c ∈ windowKept catalog input window context blocked,
      Kept σ (windowReads catalog input window context pushable blocked) window functions c := by
  rintro c ⟨hrequired, houtput⟩
  rcases List.mem_append.mp houtput with hinput | hmem
  · have hc := input.mem_scope catalog hinput
    refine .inl ⟨⟨?_, hinput⟩, h.notMem hc, fun d hd hmem => ?_⟩
    · simp only [windowChildContext, List.mem_append] at hrequired ⊢
      tauto
    · obtain ⟨f, hf, rfl⟩ := List.mem_map.mp hmem
      exact h.fresh f (hsub hf) (hscope.inside c hc _ hd)
  · obtain ⟨f, hf, rfl⟩ := List.mem_map.mp hmem
    exact .inr ⟨hscope.outside _ (h.fresh f hf), f.1, hf, hread f hf hrequired⟩

lemma blocked_kept (hblocked : ∀ p ∈ blocked, ∀ c ∈ p.columns,
      c ∈ input.outputColumns catalog ++ window.functions.map Prod.snd) :
    ∀ p ∈ blocked, ∀ c ∈ p.columns, c ∈ windowKept catalog input window context blocked :=
  fun p hp c hc =>
    ⟨List.mem_append_right _ (List.mem_flatMap.mpr ⟨p, hp, hc⟩), hblocked p hp c hc⟩

/-- The window of the functions that are read. -/
lemma pruneWindowFunctions_spec (h : window.Over catalog input)
    (hscope : newInput.2.Scoped (input.scope catalog))
    (hblocked : ∀ p ∈ blocked, ∀ c ∈ p.columns,
      c ∈ input.outputColumns catalog ++ window.functions.map Prod.snd) :
    Answers run window none newInput (windowReads catalog input window context pushable blocked)
      (windowKept catalog input window context blocked) blocked (pruneWindowFunctions catalog window
        (context.required ++ columnsOf blocked) blocked newInput) := by
  have hreads := readsIn_windowReads context pushable blocked h
  have hkept := kept_of_mem context pushable blocked h hscope
    (window.functions.filter (·.2 ∈ context.required ++ columnsOf blocked))
    (fun f hf => (List.mem_filter.mp hf).1)
    (fun f hf hmem => List.mem_filter.mpr ⟨hf, decide_eq_true hmem⟩)
  rw [pruneWindowFunctions]
  split_ifs with hnone
  · rw [hnone] at hkept
    exact answers_maybeWrapFilter
      (computes_input (keysAgree run newInput.2 hreads) (fun _ => rfl) h.nodup hkept)
      (blocked_kept hblocked)
  · refine answers_finishSimplifiedNode (makeWindow_spec hreads h.nodup ?_ hkept)
      (blocked_kept hblocked) fun _ => rfl
    exact h.nodup.sublist (List.filter_sublist.map _)

/-- The node of a fusion. -/
lemma specializeRanking_spec {f : RankFusion} {rankLimit : Option ℕ+} {pending : List Expr}
    (h : window.Over catalog input) (hscope : newInput.2.Scoped (input.scope catalog))
    (hdetects : Detects window.functions window.orderKeys pending rankLimit f)
    (hblocked : ∀ p ∈ blocked, ∀ c ∈ p.columns,
      c ∈ input.outputColumns catalog ++ window.functions.map Prod.snd) :
    Answers run window (boundOf (some f)) newInput
      (windowReads catalog input window context pushable blocked)
      (windowKept catalog input window context blocked) blocked
      (specializeRanking catalog window f (context.required ++ columnsOf blocked) blocked newInput) := by
  have hreads := readsIn_windowReads context pushable blocked h
  rw [specializeRanking]
  set rankColumn := if f.rankColumn ∈ context.required ++ columnsOf blocked then some f.rankColumn
    else none with hrankColumn
  have hrank : rankColumn = none ∨ rankColumn = some f.rankColumn := by
    rw [hrankColumn]
    split_ifs
    · exact .inr rfl
    · exact .inl rfl
  have hsub : rankColumn.toList.map (f.rankFunction, ·) ⊆ window.functions := by
    rw [hdetects.functions_eq]
    rcases hrank with hrank | hrank <;> simp [hrank]
  have hread : ∀ g ∈ window.functions, g.2 ∈ context.required ++ columnsOf blocked →
      g ∈ rankColumn.toList.map (f.rankFunction, ·) := by
    intro g hg hmem
    rw [hdetects.functions_eq] at hg
    obtain rfl := List.mem_singleton.mp hg
    rw [hrankColumn, if_pos hmem]
    simp
  have hkept := kept_of_mem context pushable blocked h hscope _ hsub hread
  -- Without a limit the rows are numbered as they arrive.
  have hunordered : f.limit = none → window.orderKeys = [] ∧ f.rankFunction = .rowNumber := by
    intro hlimit
    rcases hdetects.bound with ⟨p, -, hconsumes⟩ | ⟨-, -, ⟨hkeys, -⟩ | ⟨hne, heq⟩⟩
    · obtain ⟨limit, hsome, -⟩ := hconsumes.limit
      rw [hsome] at hlimit
      cases hlimit
    · exact ⟨hkeys, hdetects.unordered hkeys⟩
    · exact absurd (heq ▸ hlimit) hne
  have hkeys : f.limit = none → KeysAgree run newInput.2
      (windowReads catalog input window context pushable blocked) window
      (simplifyPartitionKeys newInput.2 window.partitionKeys) [] := by
    intro hlimit
    have := keysAgree run newInput.2 hreads
    rw [(hunordered hlimit).1] at this
    exact this
  split_ifs with hinput
  · obtain ⟨-, hnone, hlimit⟩ := hinput
    rw [boundOf, Option.bind_some, hlimit]
    rw [hnone] at hkept
    exact answers_maybeWrapFilter (computes_input (hkeys hlimit) (fun _ => rfl) h.nodup hkept)
      (blocked_kept hblocked)
  · cases hlimit : f.limit with
    | some limit =>
      rw [boundOf, Option.bind_some, hlimit]
      have hreplaces := replaces_makeTopNRowNumber catalog newInput rankColumn f.rankFunction
        window.partitionKeys window.orderKeys limit
      exact answers_finishSimplifiedNode
        (makeTopNRowNumber_spec hreads hdetects.functions_eq hrank hkept) (blocked_kept hblocked)
        fun hempty => Substitutions.map_apply_apply (hreplaces.extends hempty) blocked
    | none =>
      rw [boundOf, Option.bind_some, hlimit]
      obtain ⟨-, hrowNumber⟩ := hunordered hlimit
      have hreplaces := replaces_makeRowNumber catalog newInput rankColumn window.partitionKeys none
      rw [hrowNumber] at hkept
      exact answers_finishSimplifiedNode (makeRowNumber_spec none (hkeys hlimit)
          (by rw [hdetects.functions_eq, hrowNumber]) hkept) (blocked_kept hblocked)
        fun hempty => Substitutions.map_apply_apply (hreplaces.extends hempty) blocked

end choice

/-! ### The window -/

section window

variable {input : Node} {window : WindowKey} {context : Context}

/-- A window over its input. -/
abbrev WindowKey.node (window : WindowKey) (input : Node) : Node :=
  .window input window.functions window.partitionKeys window.orderKeys

/-- The rows that a bound leaves out of a window, of which there are none without a bound. -/
lemma WindowKey.Ranks.exists_beyond (hwindow : window.WellFormed)
    {bound : Option (RankFunction × ℕ+)} {l out : List Row} (h : window.Ranks run bound l out) :
    ∃ beyond, window.Ranks run none l (out ++ beyond) ∧ ∀ r ∈ beyond, ∃ fn limit,
      bound = some (fn, limit) ∧
      ((limit : ℕ) ≤ out.countP fun y => run.sortLe window.orderKeys y r) ∧
      ∀ c, (fn, c) ∈ window.functions → ∃ n, (limit : ℕ) < n ∧ r c = rankValue n := by
  cases bound with
  | none => exact ⟨[], by rwa [List.append_nil], nofun⟩
  | some b =>
    obtain ⟨beyond, hranks, hbeyond⟩ := h.unbound hwindow
    exact ⟨beyond, hranks, fun r hr => ⟨b.1, b.2, rfl, hbeyond r hr⟩⟩

/-- The conjuncts that can go below and those that stay are the same once those that give a new value
each time are kept above. -/
lemma forall_blockNondeterministic (catalog : Catalog) (split : List Expr × List Expr) (P : Expr → Prop) :
    ((∀ p ∈ (blockNondeterministic catalog split).1, P p) ∧
      ∀ p ∈ (blockNondeterministic catalog split).2, P p) ↔
    (∀ p ∈ split.1, P p) ∧ ∀ p ∈ split.2, P p := by
  simp only [blockNondeterministic, List.mem_append, List.mem_filter]
  constructor
  · rintro ⟨hbelow, habove⟩
    refine ⟨fun p hp => ?_, fun p hp => habove p (.inl hp)⟩
    by_cases hdraws : catalog.containsNonDeterministic p = true
    · exact habove p (.inr ⟨hp, hdraws⟩)
    · exact hbelow p ⟨hp, by simpa using hdraws⟩
  · rintro ⟨hbelow, habove⟩
    exact ⟨fun p hp => hbelow p hp.1, fun p hp => hp.elim (habove p) fun h => hbelow p h.1⟩

/-- What the conjuncts say of a row of a window: within the bound, what those that stay say. -/
lemma accepts_iff_of_splits {fusion : Option RankFusion} {pending : List Expr}
    {split : List Expr × List Expr} (h : window.Over catalog input)
    (hdetects : ∀ f, fusion = some f → Detects window.functions window.orderKeys pending none f)
    (hsplits : Splits window.partitionKeys fusion
      (constantRankColumn window.functions window.orderKeys) pending split)
    {l rows : List Row} (hranks : window.Ranks run none l rows) {r : Row} (hr : r ∈ rows)
    (engine : Engine) (inBound : Prop)
    (hbound : ∀ f limit, fusion = some f → f.limit = some limit →
      ∃ n, 1 ≤ n ∧ r f.rankColumn = rankValue n ∧ (n ≤ (limit : ℕ) ↔ inBound)) :
    (∀ p ∈ pending, engine.accepts r p) ↔
      ((∃ f limit, fusion = some f ∧ f.limit = some limit) → inBound) ∧
        (∀ p ∈ split.1, engine.accepts r p) ∧ ∀ p ∈ split.2, engine.accepts r p := by
  -- With no limit above, a limit comes from a conjunct consumed.
  have hconsumes : ∀ f limit, fusion = some f → f.limit = some limit → ∃ p ∈ pending,
      Consumes f f.rankColumn f.rankFunction p := by
    intro f limit hf hlimit
    rcases (hdetects f hf).bound with hconsumed | ⟨-, -, ⟨-, hnone⟩ | ⟨hne, -⟩⟩
    · exact hconsumed
    · rw [hlimit] at hnone
      cases hnone
    · exact absurd rfl hne
  have hlimited : ∀ f p, fusion = some f → f.consumedPredicate = some p →
      Consumes f f.rankColumn f.rankFunction p := by
    intro f p hf hp
    rcases (hdetects f hf).bound with ⟨q, -, hconsumed⟩ | ⟨hnone, -⟩
    · obtain rfl := Option.some.inj (hp.symm.trans hconsumed.consumedPredicate)
      exact hconsumed
    · rw [hp] at hnone
      cases hnone
  have hconstant : ∀ c, constantRankColumn window.functions window.orderKeys = some c →
      r c = rankValue 1 := by
    intro c hc
    unfold constantRankColumn at hc
    split at hc
    case h_1 fn column heq =>
      split_ifs at hc with hcond
      obtain rfl := Option.some.inj hc
      exact hranks.constant h.wellFormed hcond.1 hr (f := (fn, column)) (by rw [heq]; simp) hcond.2
    case h_2 => cases hc
  rw [hsplits.accepts engine r inBound ?_ hconstant]
  · refine and_congr_left fun _ => imp_congr_left ⟨?_, ?_⟩
    · rintro ⟨p, -, hp⟩
      obtain ⟨f, hf, hp⟩ := Option.bind_eq_some_iff.mp hp
      obtain ⟨limit, hlimit, -⟩ := (hlimited f p hf hp).limit
      exact ⟨f, limit, hf, hlimit⟩
    · rintro ⟨f, limit, hf, hlimit⟩
      obtain ⟨p, hp, hconsumed⟩ := hconsumes f limit hf hlimit
      exact ⟨p, hp, by rw [hf]; exact hconsumed.consumedPredicate⟩
  · intro p hp
    obtain ⟨f, hf, hp⟩ := Option.bind_eq_some_iff.mp hp
    obtain ⟨limit, hlimit, haccepts⟩ := (hlimited f p hf hp).limit
    obtain ⟨n, hn, hrow, hiff⟩ := hbound f limit hf hlimit
    rw [haccepts engine r n hn hrow, hiff, hf]
    rfl

lemma scope_finishWindow {fusion : Option RankFusion}
    {pending blocked : List Expr} {newInput : SimplifiedNode}
    (hdetects : ∀ f, fusion = some f →
      Detects window.functions window.orderKeys pending context.rankLimit f)
    (hscope : newInput.2.Scoped (input.scope catalog)) :
    (finishWindow catalog window fusion context blocked newInput).2.Scoped
      ((window.node input).scope catalog) := by
  have hscope' : newInput.2.Scoped ((window.node input).scope catalog) := hscope.union _
  unfold finishWindow
  simp only
  cases fusion with
  | none =>
    refine scoped_finishSimplifiedNode ?_
    rw [pruneWindowFunctions]
    split_ifs
    · exact hscope'
    · exact scoped_finishSimplifiedNode ((replaces_makeWindow ..).scoped hscope' nofun)
  | some f =>
    refine scoped_finishSimplifiedNode ?_
    have hcolumn : ∀ c, (if f.rankColumn ∈ context.required ++ columnsOf blocked
        then some f.rankColumn else none) = some c → c ∈ (window.node input).scope catalog := by
      intro c hc
      split_ifs at hc
      obtain rfl := Option.some.inj hc
      refine .inr ?_
      rw [(hdetects f rfl).functions_eq]
      exact List.mem_singleton_self _
    rw [specializeRanking]
    generalize (if f.rankColumn ∈ context.required ++ columnsOf blocked
      then some f.rankColumn else none) = rankColumn at hcolumn ⊢
    split_ifs
    · exact hscope'
    · cases f.limit with
      | some limit =>
        exact scoped_finishSimplifiedNode ((replaces_makeTopNRowNumber ..).scoped hscope' hcolumn)
      | none => exact scoped_finishSimplifiedNode ((replaces_makeRowNumber ..).scoped hscope' hcolumn)

/-- The node for a window delivers its rows that pass the conjuncts that stay. -/
lemma finishWindow_spec (pushable : List Expr) (h : window.Over catalog input)
    {fusion : Option RankFusion} {pending blocked : List Expr} {newInput : SimplifiedNode}
    (hdetects : ∀ f, fusion = some f →
      Detects window.functions window.orderKeys pending context.rankLimit f)
    (hscope : newInput.2.Scoped (input.scope catalog))
    (hblocked : ∀ p ∈ blocked, ∀ c ∈ p.columns, c ∈ (window.node input).outputColumns catalog) :
    Answers run window (boundOf fusion) newInput
      (windowReads catalog input window context pushable blocked)
      (windowKept catalog input window context blocked) blocked
      (finishWindow catalog window fusion context blocked newInput) := by
  unfold finishWindow
  simp only
  cases fusion with
  | none => exact (pruneWindowFunctions_spec h hscope hblocked).finish
  | some f => exact (specializeRanking_spec h hscope (hdetects f rfl) hblocked).finish

/-- The conjuncts above a window, divided, fit its input. -/
lemma fits_windowChildContext (h : window.Over catalog input)
    (hfits : context.Fits catalog (window.node input)) {fusion : Option RankFusion}
    {split : List Expr × List Expr} (hsplits : Splits window.partitionKeys fusion
      (constantRankColumn window.functions window.orderKeys) context.pending split)
    (blocked : List Expr) : (windowChildContext window context
      (blockNondeterministic catalog split).1 blocked).Fits catalog input where
  folded p hp := hfits.folded p (hsplits.pushable p (List.mem_filter.mp hp).1).1
  columns p hp c hc := h.partitionKeys c
    ((of_decide_eq_true (hsplits.pushable p (List.mem_filter.mp hp).1).2).2 hc)
  rankLimit := absurd rfl

/-- The conjuncts that stay read columns of the window. -/
lemma columns_blocked (hfits : context.Fits catalog (window.node input)) {fusion : Option RankFusion}
    {split : List Expr × List Expr} (hsplits : Splits window.partitionKeys fusion
      (constantRankColumn window.functions window.orderKeys) context.pending split)
    (hdetects : ∀ f, fusion = some f →
      Detects window.functions window.orderKeys context.pending context.rankLimit f) :
    ∀ p ∈ (blockNondeterministic catalog split).2, ∀ c ∈ p.columns,
      c ∈ (window.node input).outputColumns catalog := by
  intro p hp c hc
  rcases List.mem_append.mp hp with hp | hp
  · rcases hsplits.blocked p hp with hp | hp
    · exact hfits.columns p hp c hc
    · obtain ⟨f, hf, hp⟩ := Option.bind_eq_some_iff.mp hp
      rcases (hdetects f hf).bound with ⟨q, hq, hconsumes⟩ | ⟨-, hnone, -⟩
      · rw [hconsumes.remaining_columns p hp, List.mem_singleton] at hc
        exact hfits.columns q hq c (hc ▸ hconsumes.mem_columns)
      · rw [hp] at hnone
        cases hnone
  · exact hfits.columns p (hsplits.pushable p (List.mem_filter.mp hp).1).1 c hc

/-- The rows of a window under its conjuncts. -/
lemma rows_of_conjuncts {fusion : Option RankFusion} {pending : List Expr}
    {split : List Expr × List Expr} (h : window.Over catalog input)
    (hdetects : ∀ f, fusion = some f → Detects window.functions window.orderKeys pending none f)
    (hsplits : Splits window.partitionKeys fusion
      (constantRankColumn window.functions window.orderKeys) pending split)
    {rows full ranked out : List Row}
    (hfilter : run.Filtered (blockNondeterministic catalog split).1 rows full)
    (hranked : window.Ranks run (boundOf fusion) full ranked)
    (hout : run.Filtered (blockNondeterministic catalog split).2 ranked out) :
    ∃ l, window.Ranks run none rows l ∧ run.Filtered pending l out := by
  have hpushable : ∀ p ∈ (blockNondeterministic catalog split).1,
      catalog.containsNonDeterministic p = false ∧ p ∈ split.1 := by
    intro p hp
    obtain ⟨hp, hdraws⟩ := List.mem_filter.mp hp
    exact ⟨by simpa using hdraws, hp⟩
  have hkeys : ∀ p ∈ split.1, p.columns ⊆ window.partitionKeys := fun p hp =>
    (of_decide_eq_true (hsplits.pushable p hp).2).2
  obtain ⟨beyond, hbeyondRanks, hbeyond⟩ := hranked.exists_beyond h.wellFormed
  obtain ⟨dropped, hdroppedRanks, hdropped⟩ := hbeyondRanks.push h.wellFormed
    (fun p hp => ⟨(hpushable p hp).1, hkeys p (hpushable p hp).2⟩) hfilter
  have hbound : ∀ f limit, fusion = some f → f.limit = some limit →
      boundOf fusion = some (f.rankFunction, limit) ∧
        (f.rankFunction, f.rankColumn) ∈ window.functions := by
    intro f limit hf hlimit
    rw [hf, boundOf, Option.bind_some, hlimit, (hdetects f hf).functions_eq]
    exact ⟨rfl, List.mem_singleton_self _⟩
  refine ⟨ranked ++ beyond ++ dropped, hdroppedRanks, ?_⟩
  have hkept : run.Filtered pending ranked out := by
    refine hout.congr fun r hr engine hengine => ?_
    have haccepts := accepts_iff_of_splits h hdetects hsplits hbeyondRanks
      (List.mem_append_left beyond hr) engine True (fun f limit hf hlimit => by
        obtain ⟨hbound, hmem⟩ := hbound f limit hf hlimit
        obtain ⟨n, hn, hrow, hle⟩ := hranked.number h.wellFormed hr hmem
        exact ⟨n, hn, hrow, iff_true_intro (hle limit hbound)⟩)
    rw [haccepts, imp_true_iff, true_and, ← forall_blockNondeterministic catalog split]
    refine (and_iff_right fun p hp => ?_).symm
    have hfull := (hfilter.exists_dropped fun p hp => (hpushable p hp).1)
    obtain ⟨-, -, hfull, -⟩ := hfull
    exact hranked.accepts h.wellFormed (hkeys p (hpushable p hp).2)
      (fun s hs => hfull s hs engine hengine p hp) hr
  have hbeyondFails : run.Filtered pending beyond [] := by
    refine .of_rejects fun r hr engine hengine haccepts => ?_
    obtain ⟨fn, limit, hboundEq, -, hnumber⟩ := hbeyond r hr
    obtain ⟨f, hf, hlimited⟩ := Option.bind_eq_some_iff.mp hboundEq
    obtain ⟨limit', hlimit, heq⟩ := Option.map_eq_some_iff.mp hlimited
    obtain ⟨rfl, rfl⟩ := Prod.mk.inj heq
    obtain ⟨-, hmem⟩ := hbound f limit' hf hlimit
    obtain ⟨n, hlt, hrow⟩ := hnumber _ hmem
    have hiff := accepts_iff_of_splits h hdetects hsplits hbeyondRanks
      (List.mem_append_right ranked hr) engine False (fun g limit hg hlimit' => by
        obtain rfl := Option.some.inj (hf.symm.trans hg)
        obtain rfl := Option.some.inj (hlimit.symm.trans hlimit')
        exact ⟨n, by omega, hrow, iff_of_false (by omega) id⟩)
    exact (hiff.mp haccepts).1 ⟨f, limit', hf, hlimit⟩
  have hdroppedFails : run.Filtered pending dropped [] := by
    refine .of_rejects fun r hr engine hengine haccepts => hdropped r hr engine hengine fun p hp => ?_
    exact haccepts p (hsplits.pushable p (hpushable p hp).2).1
  simpa using (hkept.append hbeyondFails).append hdroppedFails

/-- The rows of a window under a limit. -/
lemma rows_of_limit {fusion : Option RankFusion} {cap : ℕ+} (h : window.Over catalog input)
    (hdetects : ∀ f, fusion = some f → Detects window.functions window.orderKeys [] (some cap) f)
    {full ranked : List Row} (hranked : window.Ranks run (boundOf fusion) full ranked) :
    ∃ l, window.Ranks run none full l ∧ Keeps run window.orderKeys (some cap) ranked l := by
  obtain ⟨beyond, hranks, hbeyond⟩ := hranked.exists_beyond h.wellFormed
  refine ⟨_, hranks, beyond, .refl _, fun r hr => ?_⟩
  obtain ⟨fn, limit, hbound, hcount, -⟩ := hbeyond r hr
  obtain ⟨f, hf, hlimited⟩ := Option.bind_eq_some_iff.mp hbound
  obtain ⟨limit', hlimit, heq⟩ := Option.map_eq_some_iff.mp hlimited
  obtain ⟨-, rfl⟩ := Prod.mk.inj heq
  rcases (hdetects f hf).bound with ⟨p, hp, -⟩ | ⟨-, -, ⟨-, hnone⟩ | ⟨-, hsame⟩⟩
  · cases hp
  · rw [hlimit] at hnone
    cases hnone
  · obtain rfl := Option.some.inj (hlimit.symm.trans hsame)
    exact hcount

/-- **A window is rewritten soundly, under conjuncts or under a limit.** -/
theorem rewriteWindow_sound {rewriteInput : Rewriting} (h : window.Over catalog input)
    (hinput : RewritesSoundly catalog rewriteInput input) :
    RewritesSoundly catalog (rewriteWindow catalog rewriteInput window) (window.node input) := by
  intro context hfits
  obtain ⟨fusion, hfusion, hdetects⟩ := detectRankFusion_spec catalog.registry window.orderKeys
    context.rankLimit h.bigint hfits.folded
  have hconstant : ∀ c, constantRankColumn window.functions window.orderKeys = some c →
      c.type = .bigint := by
    intro c hc
    unfold constantRankColumn at hc
    split at hc
    case h_1 fn column heq =>
      split_ifs at hc
      obtain rfl := Option.some.inj hc
      exact h.bigint (fn, column) (by rw [heq]; exact List.mem_singleton_self _)
    case h_2 => cases hc
  obtain ⟨split, hsplit, hsplits⟩ := splitConjuncts_spec window.partitionKeys fusion
    (constantRankColumn window.functions window.orderKeys) hconstant hfits.folded
  have hchild := fits_windowChildContext h hfits hsplits (blockNondeterministic catalog split).2
  obtain ⟨newInput, hnewInput, hsound⟩ := hinput _ hchild
  refine ⟨finishWindow catalog window fusion context (blockNondeterministic catalog split).2 newInput,
    ?_, fun run => ⟨scope_finishWindow hdetects (hsound run).inScope, fun out' hout' => ?_⟩⟩
  · unfold rewriteWindow
    rw [hfusion]
    change (splitConjuncts _ _ _ _ >>= _) = _
    rw [hsplit]
    change (rewriteInput _ >>= _) = _
    rw [hnewInput]
    rfl
  · obtain ⟨l', hl', hanswer⟩ := finishWindow_spec (blockNondeterministic catalog split).1 h hdetects
      (hsound run).inScope (columns_blocked hfits hsplits hdetects) out' hout'
    obtain ⟨rows, hrows, full, hfilter, full', hkeeps, hagree⟩ := (hsound run).rows l' hl'
    obtain rfl : full' = full := hkeeps
    obtain ⟨ranked, hranked, out, hout, houtAgree⟩ := hanswer _ hagree
    have hreads : context.reads catalog (window.node input) ⊆
        windowKept catalog input window context (blockNondeterministic catalog split).2 :=
      fun c hc => ⟨List.mem_append_left _ hc.1, hc.2⟩
    have hagreeAbove : List.Forall₂ (Agrees (finishWindow catalog window fusion context
        (blockNondeterministic catalog split).2 newInput).2
          (context.reads catalog (window.node input))) out out' :=
      houtAgree.imp fun r r' hr => hr.mono hreads
    cases hlimit : context.rankLimit with
    | none =>
      rw [hlimit] at hdetects
      obtain ⟨l, hl, hpending⟩ := rows_of_conjuncts h hdetects hsplits hfilter hranked hout
      have hmem : l ∈ run.Delivers false (window.node input) := ⟨⟨rows, hrows, hl⟩, nofun⟩
      exact ⟨l, hmem, out, hpending, out, rfl, hagreeAbove⟩
    | some cap =>
      obtain ⟨-, hpending⟩ := hfits.rankLimit (by rw [hlimit]; nofun)
      rw [hlimit, hpending] at hdetects
      rw [hpending] at hsplit ⊢
      obtain rfl : ([], []) = split := Except.ok.inj hsplit
      obtain rfl := Run.filtered_nil hfilter
      obtain rfl := Run.filtered_nil hout
      obtain ⟨l, hl, hkeeps⟩ := rows_of_limit h hdetects hranked
      have hmem : l ∈ run.Delivers false (window.node input) := ⟨⟨_, hrows, hl⟩, nofun⟩
      exact ⟨l, hmem, l, .of_nil l, _, hkeeps, hagreeAbove⟩

end window

end Verax.Ranking
