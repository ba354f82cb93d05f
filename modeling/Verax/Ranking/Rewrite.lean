import Verax.Filters.SimplifyFilter
import Verax.Ranking.RewriteWindow

/-!
# Ranking fusion keeps rows

Filters and limits above windows of ranking functions, rewritten: the nodes chosen, with the
conjuncts and limits they keep, return what the nodes they stand for could return.

* `emitsInOrder_spec`: a node recognized as sorted is.
* `rewriteLimit_sound`, `rewriteTopN_sound`: limits over windows that leave rows out.
* `rewrite_sound`: every plan of filters, windows, limits and TopN.
-/

namespace Verax.Ranking

open Lib Lib.Rankings Filters

variable {catalog : Catalog} {run : Run catalog}

/-! ### Filters -/

namespace Run

/-- A filter after a filter. -/
lemma Filtered.exists_split {ps qs : List Expr} {l k : List Row}
    (h : run.Filtered (ps ++ qs) l k) : ∃ m, run.Filtered qs l m ∧ run.Filtered ps m k := by
  induction h with
  | nil => exact ⟨[], .nil, .nil⟩
  | keep engine hengine haccepts _ ih =>
    obtain ⟨m, hm, hk⟩ := ih
    rw [List.forall_mem_append] at haccepts
    exact ⟨_, .keep engine hengine haccepts.2 hm, .keep engine hengine haccepts.1 hk⟩
  | @drop row rows kept engine hengine hrejects _ ih =>
    obtain ⟨m, hm, hk⟩ := ih
    rw [List.forall_mem_append] at hrejects
    by_cases hqs : ∀ q ∈ qs, engine.accepts row q
    · exact ⟨_, .keep engine hengine hqs hm, .drop engine hengine (fun h => hrejects ⟨h, hqs⟩) hk⟩
    · exact ⟨m, .drop engine hengine hqs hm, hk⟩

end Run

lemma accepts_flatMap_flattenAnd (engine : Engine) (row : Row) (predicates : List Expr) :
    (∀ q ∈ predicates.flatMap flattenAnd, engine.accepts row q) ↔
      ∀ p ∈ predicates, engine.accepts row p := by
  simp only [List.mem_flatMap, forall_exists_index, and_imp]
  constructor
  · exact fun h p hp => (accepts_flattenAnd p).mpr fun q hq => h q p hp hq
  · exact fun h q p hp hq => (accepts_flattenAnd p).mp (h p hp) q hq

/-- A filter dissolves into the conjuncts above its input. -/
lemma rewriteFilter_sound {rewriteInput : Rewriting} {input : Node} {predicates : List Expr}
    (hpredicates : ∀ p ∈ predicates, ∀ q ∈ flattenAnd p,
      Folded q ∧ ∀ c ∈ q.columns, c ∈ input.outputColumns catalog)
    (hinput : RewritesSoundly catalog rewriteInput input) :
    RewritesSoundly catalog (fun context =>
      rewriteInput { context with pending := context.pending ++ predicates.flatMap flattenAnd })
      (.filter input predicates) := by
  intro context hfits
  have hflat : ∀ q ∈ predicates.flatMap flattenAnd,
      Folded q ∧ ∀ c ∈ q.columns, c ∈ input.outputColumns catalog := by
    intro q hq
    obtain ⟨p, hp, hq⟩ := List.mem_flatMap.mp hq
    exact hpredicates p hp q hq
  have hnone : context.rankLimit = none := by
    by_contra hne
    cases (hfits.rankLimit hne).1
  obtain ⟨result, hresult, hsound⟩ := hinput
    { context with pending := context.pending ++ predicates.flatMap flattenAnd }
    { folded := List.forall_mem_append.mpr ⟨hfits.folded, fun q hq => (hflat q hq).1⟩
      columns := List.forall_mem_append.mpr ⟨hfits.columns, fun q hq => (hflat q hq).2⟩
      rankLimit := fun h => absurd hnone h }
  refine ⟨result, hresult, fun run => ⟨(hsound run).inScope, fun out' hout' => ?_⟩⟩
  obtain ⟨l, hl, full, hfilter, out, hkeeps, hagree⟩ := (hsound run).rows out' hout'
  obtain ⟨m, hm, hfull⟩ := hfilter.exists_split
  have hkeeps' : out = full := by
    simp only [hnone] at hkeeps
    exact hkeeps
  have hpasses : m ∈ run.Delivers false (.filter input predicates) :=
    ⟨l, hl, hm.congr fun r _ engine _ => accepts_flatMap_flattenAnd engine r predicates⟩
  refine ⟨m, hpasses, full, hfull, out, ?_, hagree⟩
  rw [hnone]
  exact hkeeps'

/-! ### Nodes that conjuncts do not cross -/

/-- What is known above the rows of a node under no conjuncts. -/
abbrev plainContext (required : List Column) : Context := ⟨[], required, required, none⟩

/-- A node rewritten under no conjuncts and filtered. -/
lemma blockAt_sound {recurse : Rewriting} {node : Node} (hnode : node.isWindow = false)
    (h : ∀ required, ∃ result, recurse (plainContext required) = .ok result ∧
      ∀ run : Run catalog, Sound run node (plainContext required) result) :
    RewritesSoundly catalog (blockAt recurse) node := by
  intro context hfits
  have hnone : context.rankLimit = none := by
    by_contra hne
    rw [(hfits.rankLimit hne).1] at hnode
    cases hnode
  obtain ⟨recursed, hrecursed, hsound⟩ := h (context.required ++ columnsOf context.pending)
  refine ⟨finishSimplifiedNode
    (maybeWrapFilter recursed.1 (context.pending.map recursed.2.apply), recursed.2) [], ?_,
    fun run => ⟨scoped_finishSimplifiedNode (hsound run).inScope, fun out' hout' => ?_⟩⟩
  · unfold blockAt
    change (recurse (plainContext _) >>= _) = _
    rw [hrecursed]
    rfl
  · obtain ⟨k', hk', hfilter, hagree⟩ := delivers_finishSimplifiedNode hout'
    obtain rfl := Run.filtered_nil hfilter
    obtain ⟨l', hl', hpending⟩ := delivers_maybeWrapFilter hk'
    obtain ⟨l, hl, full, hfull, out, hkeeps, hrows⟩ := (hsound run).rows l' hl'
    obtain rfl : out = full := hkeeps
    obtain rfl := Run.filtered_nil hfull
    have hcolumns : ∀ p ∈ context.pending, ∀ c ∈ p.columns, c ∈
        (plainContext (context.required ++ columnsOf context.pending)).reads catalog node :=
      fun p hp c hc => ⟨List.mem_append_right _ (List.mem_flatMap.mpr ⟨p, hp, hc⟩),
        hfits.columns p hp c hc⟩
    obtain ⟨kept, hkept, hkeptRows⟩ := Run.Filtered.of_agrees hcolumns hrows hpending
    have hreads : context.reads catalog node ⊆
        (plainContext (context.required ++ columnsOf context.pending)).reads catalog node :=
      fun c hc => ⟨List.mem_append_left _ hc.1, hc.2⟩
    refine ⟨_, hl, kept, hkept, kept, ?_, hagree _ _ (hkeptRows.imp fun r r' hr => hr.mono hreads)⟩
    rw [hnone]
    rfl

/-! ### Limits -/

/-- Rows of a window in another order. -/
lemma delivers_of_perm {input : Node} (hinput : input.isWindow = true) {l l' : List Row}
    (hl : l ∈ run.Delivers false input) (hperm : l'.Perm l) : l' ∈ run.Delivers false input := by
  cases input with
  | window input functions partitionKeys orderKeys =>
    obtain ⟨⟨rows, hrows, arranged, harranged, hpartitions, hout⟩, -⟩ := hl
    exact ⟨⟨rows, hrows, arranged, harranged, hpartitions, hperm.trans hout⟩, nofun⟩
  | _ => cases hinput

/-- What the limit above a node knows: a window may leave rows out past the rows the limit reads. -/
def LimitFits (input : Node) (offset : ℕ) (count : ℕ+) (rankLimit : Option ℕ+) : Prop :=
  rankLimit = none ∨ input.isWindow = true ∧ ∃ cap : ℕ+, rankLimit = some cap ∧
    (cap : ℕ) = offset + count

lemma limitFits_rankLimitOf {input : Node} {offset : ℕ} {count : ℕ+} (p : Bool)
    (hp : p = true → input.isWindow = true) :
    LimitFits input offset count (if p then rankLimitOf offset count else none) := by
  split_ifs with h
  · rw [rankLimitOf]
    split_ifs
    · exact .inr ⟨hp h, _, rfl, rfl⟩
    · exact .inl rfl
  · exact .inl rfl

/-- The rows a limit reads. -/
lemma cut_eq_of_take_eq {l k : List Row} {offset : ℕ} {count : ℕ+}
    (h : l.take (offset + count) = k.take (offset + count)) :
    (l.drop offset).take count = (k.drop offset).take count := by
  rw [List.take_drop, List.take_drop, h]

/-- A limit over rows of which some are left out. -/
lemma exists_delivers_of_keeps {input : Node} {offset : ℕ} {count : ℕ+} {rankLimit : Option ℕ+}
    (hlimit : LimitFits input offset count rankLimit) {l out : List Row}
    (hl : l ∈ run.Delivers false input) (h : Keeps run input.windowOrderKeys rankLimit out l) :
    ∃ k ∈ run.Delivers false input, (k.drop offset).take count = (out.drop offset).take count := by
  rcases hlimit with rfl | ⟨hwindow, cap, rfl, hcap⟩
  · obtain rfl : out = l := h
    exact ⟨_, hl, rfl⟩
  · obtain ⟨rest, hperm, habove⟩ := h
    refine ⟨out ++ rest, delivers_of_perm hwindow hl hperm, cut_eq_of_take_eq ?_⟩
    cases rest with
    | nil => rw [List.append_nil]
    | cons r rest =>
      have := (habove r List.mem_cons_self).trans List.countP_le_length
      exact List.take_append_of_le_length (by omega)

/-- A TopN over rows of which some are left out. -/
lemma exists_sorted_of_keeps {input : Node} {orderKeys : List SortKey} {offset : ℕ} {count : ℕ+}
    {rankLimit : Option ℕ+} (hlimit : LimitFits input offset count rankLimit)
    (hkeys : rankLimit ≠ none → input.windowOrderKeys = orderKeys) {l out sorted : List Row}
    (h : Keeps run input.windowOrderKeys rankLimit out l) (hperm : sorted.Perm out)
    (hsorted : sorted.Pairwise fun r s => run.sortLe orderKeys r s = true) :
    ∃ all : List Row, all.Perm l ∧ (all.Pairwise fun r s => run.sortLe orderKeys r s = true) ∧
      (all.drop offset).take count = (sorted.drop offset).take count := by
  rcases hlimit with rfl | ⟨-, cap, rfl, hcap⟩
  · obtain rfl : out = l := h
    exact ⟨sorted, hperm, hsorted, rfl⟩
  · rw [hkeys nofun] at h
    obtain ⟨rest, hall, habove⟩ := h
    obtain ⟨all, hallPerm, hallSorted, htake⟩ := exists_sorted_take (run.sortLe_total orderKeys)
      (run.sortLe_trans orderKeys) habove hperm hsorted
    rw [hcap] at htake
    exact ⟨all, hallPerm.trans hall, hallSorted, cut_eq_of_take_eq htake⟩

/-- A node recognized to emit few rows does. -/
lemma length_le_of_keepsFirst {offset : ℕ} {count : ℕ+} {node : Node}
    (h : keepsFirst offset count node = true) {out : List Row}
    (hout : out ∈ run.Delivers true node) : offset = 0 ∧ out.length ≤ (count : ℕ) := by
  cases node with
  | topNRowNumber input rankFunction partitionKeys orderKeys limit rankColumn =>
    obtain ⟨rfl, rfl, rfl, rfl⟩ := of_decide_eq_true h
    obtain ⟨l, -, arranged, -, -, hperm⟩ := hout
    refine ⟨rfl, ?_⟩
    rw [hperm.length_eq, List.length_map]
    exact length_filter_withEarlier limit [] arranged
  | _ => cases h

/-- What a limit over a rewritten node reads of it, whatever form the limit takes. -/
structure CutsTo (run : Run catalog) (newInput result : SimplifiedNode) (offset : ℕ) (count : ℕ+)
    (out' k' : List Row) : Prop where
  cut : out' = (k'.drop offset).take count
  replaced : result.2 = newInput.2 ∨ out' = [] ∧ result.2 = .none

lemma CutsTo.agrees {newInput result : SimplifiedNode} {offset : ℕ} {count : ℕ+}
    {out' k k' : List Row} (h : CutsTo run newInput result offset count out' k') {columns : Set Column}
    (hagree : List.Forall₂ (Agrees newInput.2 columns) k k') :
    List.Forall₂ (Agrees result.2 columns) ((k.drop offset).take count) out' := by
  have hcut := List.forall₂_take count (List.forall₂_drop offset hagree)
  rw [← h.cut] at hcut
  rcases h.replaced with heq | ⟨rfl, -⟩
  · rw [heq]
    exact hcut
  · rw [List.forall₂_nil_right_iff.mp hcut]
    exact .nil

/-- A limit over a node without rows is a node without rows. -/
lemma delivers_makeLimit {newInput : SimplifiedNode} {columns : List Column} {offset : ℕ} {count : ℕ+}
    {out' : List Row} (hout' : out' ∈ run.Delivers true (makeLimit newInput columns offset count).1) :
    ∃ k' ∈ run.Delivers true newInput.1,
      CutsTo run newInput (makeLimit newInput columns offset count) offset count out' k' := by
  unfold makeLimit at hout' ⊢
  split_ifs at hout' ⊢ with hempty
  · obtain rfl : out' = [] := hout'
    exact ⟨[], nil_delivers_of_isEmpty hempty, by simp, .inr ⟨rfl, rfl⟩⟩
  · obtain ⟨k', hk', rfl⟩ := hout'
    exact ⟨k', hk', rfl, .inl rfl⟩

/-- A limit over a rewritten node, left out where the node already emits few rows. -/
lemma delivers_keepsFirst {newInput : SimplifiedNode} {columns : List Column} {offset : ℕ}
    {count : ℕ+} {out' : List Row} (hout' : out' ∈ run.Delivers true (if keepsFirst offset count
      newInput.1 then newInput else makeLimit newInput columns offset count).1) :
    ∃ k' ∈ run.Delivers true newInput.1, CutsTo run newInput (if keepsFirst offset count newInput.1
      then newInput else makeLimit newInput columns offset count) offset count out' k' := by
  split_ifs at hout' ⊢ with hkeeps
  · obtain ⟨rfl, hlength⟩ := length_le_of_keepsFirst hkeeps hout'
    exact ⟨out', hout', (List.take_of_length_le hlength).symm, .inl rfl⟩
  · exact delivers_makeLimit hout'

lemma scoped_makeLimit {newInput : SimplifiedNode} {columns : List Column} {offset : ℕ} {count : ℕ+}
    {scope : Set Column} (h : newInput.2.Scoped scope) :
    (makeLimit newInput columns offset count).2.Scoped scope := by
  unfold makeLimit
  split_ifs
  · exact Substitutions.scoped_none
  · exact h

/-- A limit over a rewritten window may read rows that the window leaves out. -/
lemma rewriteLimit_sound {rewriteInput : Rewriting} {input : Node} {offset : ℕ} {count : ℕ+}
    (hinput : RewritesSoundly catalog rewriteInput input) :
    RewritesSoundly catalog (rewriteLimit catalog rewriteInput input offset count)
      (.limit input offset count) := by
  refine blockAt_sound rfl fun required => ?_
  set rankLimit := if input.isWindow then rankLimitOf offset count else none with hrankLimit
  have hlimit : LimitFits input offset count rankLimit := limitFits_rankLimitOf _ id
  obtain ⟨newInput, hnewInput, hsound⟩ := hinput { plainContext required with rankLimit }
    { folded := nofun
      columns := nofun
      rankLimit := fun hne => ⟨(hlimit.resolve_left hne).1, rfl⟩ }
  refine ⟨if keepsFirst offset count newInput.1 then newInput
    else makeLimit newInput (input.outputColumns catalog) offset count, ?_, fun run => ⟨?_, ?_⟩⟩
  · change (rewriteInput { plainContext required with rankLimit } >>= _) = _
    rw [hnewInput]
    change (if _ then _ else _) = _
    split_ifs <;> rfl
  · split_ifs
    · exact (hsound run).inScope
    · exact scoped_makeLimit (hsound run).inScope
  · intro out' hout'
    obtain ⟨k', hk', hcuts⟩ := delivers_keepsFirst hout'
    obtain ⟨l, hl, full, hfull, out, hkeeps, hagree⟩ := (hsound run).rows k' hk'
    obtain rfl := Run.filtered_nil hfull
    obtain ⟨k, hk, hcut⟩ := exists_delivers_of_keeps hlimit hl hkeeps
    refine ⟨_, ⟨k, hk, rfl⟩, _, .of_nil _, (out.drop offset).take count, hcut.symm, ?_⟩
    exact hcuts.agrees hagree

/-! ### TopN -/

/-- The expressions that order keys sort by. -/
def keyExprs (keys : List SortKey) : List (Expr × OrderType) :=
  keys.map fun key => (.column key.column, key.orderType)

/-- A key of a projection's rows stands for a column of its input. -/
def Passes (catalog : Catalog) (exprs : List (Column × Expr)) (key source : SortKey) : Prop :=
  key.orderType = source.orderType ∧ ∀ run : Run catalog, ∀ r r', run.Projects exprs r r' →
    r' key.column = r source.column

lemma sortLe_of_passes {exprs : List (Column × Expr)} {keys sources : List SortKey}
    (h : List.Forall₂ (Passes catalog exprs) keys sources) {r r' s s' : Row}
    (hr : run.Projects exprs r r') (hs : run.Projects exprs s s') :
    run.sortLe keys r' s' = run.sortLe sources r s := by
  induction h with
  | nil => rfl
  | cons hkey _ ih =>
    obtain ⟨htype, hvalue⟩ := hkey
    rw [Run.sortLe, Run.sortLe, hvalue run _ _ hr, hvalue run _ _ hs, htype, ih]

/-- The keys of a projection and those of its input they stand for. -/
lemma exists_passes (catalog : Catalog) {exprs : List (Column × Expr)} : ∀ {keys : List (Expr × OrderType)}
    {sources : List SortKey}, (keys.mapM fun key =>
      (exprs.find? (.column ·.1 = key.1)).map fun e => (e.2, key.2)) = some (keyExprs sources) →
    ∃ columns, keys = keyExprs columns ∧
      List.Forall₂ (Passes catalog exprs) columns sources
  | [], sources, h => by
    cases sources with
    | nil => exact ⟨[], rfl, .nil⟩
    | cons _ _ => cases h
  | key :: keys, sources, h => by
    simp only [List.mapM_cons, Option.pure_def, Option.bind_eq_bind, Option.bind_eq_some_iff,
      Option.map_eq_some_iff, Option.some.injEq] at h
    obtain ⟨_, ⟨e, hfind, rfl⟩, mapped, hmapped, hcons⟩ := h
    cases sources with
    | nil => cases hcons
    | cons source sources =>
      obtain ⟨hhead, rfl⟩ := List.cons.inj hcons
      obtain ⟨columns, rfl, hpasses⟩ := exists_passes catalog hmapped
      obtain ⟨hexpr, htype⟩ := Prod.mk.inj hhead
      have hkey : Expr.column e.1 = key.1 := by simpa using List.find?_some hfind
      refine ⟨⟨e.1, key.2⟩ :: columns, ?_, .cons ⟨htype, fun run r r' hproject => ?_⟩ hpasses⟩
      · exact congrArg₂ List.cons (Prod.ext hkey.symm rfl) rfl
      · obtain ⟨engine, -, hvalues⟩ := hproject
        have hvalue := hvalues e.1
        simp only [← hkey, Expr.column.injEq] at hfind
        rw [hfind] at hvalue
        obtain ⟨c, expr⟩ := e
        simp only at hexpr hvalue
        rw [hvalue, hexpr]

/-- **A node recognized as sorted is.** -/
theorem emitsInOrder_spec (catalog : Catalog) : ∀ {node : Node} {keys : List (Expr × OrderType)},
    emitsInOrder node keys = true → ∃ columns, keys = keyExprs columns ∧
      ∀ (run : Run catalog), ∀ out ∈ run.Delivers true node,
        out.Pairwise fun r s => run.sortLe columns r s = true
  | .project input exprs, keys, h => by
    rw [emitsInOrder] at h
    split at h
    case h_1 mapped hmapped =>
      obtain ⟨sources, rfl, hsorted⟩ := emitsInOrder_spec catalog h
      obtain ⟨columns, rfl, hpasses⟩ := exists_passes catalog hmapped
      refine ⟨columns, rfl, fun run out hout => ?_⟩
      obtain ⟨l, hl, hprojects⟩ := hout
      refine pairwise_of_forall₂ (fun r' r s' s hr hs hle => ?_) hprojects.flip (hsorted run l hl)
      rwa [sortLe_of_passes hpasses hr hs]
    case h_2 => cases h
  | .window input functions partitionKeys orderKeys, keys, h => by
    obtain ⟨rfl, rest, hrest⟩ := of_decide_eq_true h
    obtain ⟨columns, rest', horder, rfl, hkeys⟩ := List.map_eq_append_iff.mp hrest.symm
    refine ⟨columns, rfl, fun run out hout => ?_⟩
    exact (hout.2 rfl rfl).imp fun hle => run.sortLe_of_isPrefix ⟨rest', horder.symm⟩ hle
  | .source _, _, h => nomatch h
  | .empty _, _, h => nomatch h
  | .filter _ _, _, h => nomatch h
  | .topNRowNumber _ _ _ _ _ _, _, h => nomatch h
  | .rowNumber _ _ _ _, _, h => nomatch h
  | .limit _ _ _, _, h => nomatch h
  | .topN _ _ _ _, _, h => nomatch h

lemma keyExprs_injective : Function.Injective keyExprs := by
  refine List.map_injective_iff.mpr fun key key' h => ?_
  obtain ⟨hcolumn, htype⟩ := Prod.mk.inj h
  cases key
  cases key'
  exact congrArg₂ SortKey.mk (Expr.column.inj hcolumn) htype

/-- A TopN over a rewritten node cuts the rows once sorted by what its keys became. -/
lemma delivers_finishTopN {newInput : SimplifiedNode} {columns : List Column}
    {orderKeys : List SortKey} {offset : ℕ} {count : ℕ+} {out' : List Row}
    (hout' : out' ∈ run.Delivers true (finishTopN columns orderKeys offset count newInput).1) :
    ∃ k' ∈ run.Delivers true newInput.1, ∃ sorted : List Row, sorted.Perm k' ∧
      (sorted.Pairwise fun r s =>
        run.sortLe (simplifyOrderKeys newInput.2 [] orderKeys) r s = true) ∧
      CutsTo run newInput (finishTopN columns orderKeys offset count newInput) offset count out'
        sorted := by
  unfold finishTopN makeTopN at hout' ⊢
  simp only at hout' ⊢
  split_ifs at hout' ⊢ with hempty hkeys
  · obtain rfl : out' = [] := hout'
    exact ⟨[], nil_delivers_of_isEmpty hempty, [], .refl _, .nil, by simp, .inr ⟨rfl, rfl⟩⟩
  · obtain ⟨k', hk', rfl⟩ := hout'
    rw [hkeys]
    exact ⟨k', hk', k', .refl _, List.pairwise_of_forall fun _ _ => rfl, rfl, .inl rfl⟩
  · simp only at hout' ⊢
    split_ifs at hout' ⊢ with horder
    · obtain ⟨k', hk', rfl⟩ := hout'
      obtain ⟨sources, hsources, hsorted⟩ := emitsInOrder_spec catalog horder
      obtain rfl := keyExprs_injective hsources
      exact ⟨k', hk', k', .refl _, hsorted run k' hk', rfl, .inl rfl⟩
    · obtain ⟨k', hk', sorted, hperm, hsorted, rfl⟩ := hout'
      exact ⟨k', hk', sorted, hperm, hsorted, rfl, .inl rfl⟩

lemma scoped_finishTopN {newInput : SimplifiedNode} {columns : List Column}
    {orderKeys : List SortKey} {offset : ℕ} {count : ℕ+} {scope : Set Column}
    (h : newInput.2.Scoped scope) :
    (finishTopN columns orderKeys offset count newInput).2.Scoped scope := by
  unfold finishTopN makeTopN
  simp only
  split_ifs
  · exact Substitutions.scoped_none
  · exact h
  · simp only
    split_ifs <;> exact h

/-- Sorted rows that stand for rows of an input stand for them sorted. -/
lemma exists_sorted_of_agrees {σ : Substitutions} {columns : Set Column} {orderKeys : List SortKey}
    (hcolumns : ∀ key ∈ orderKeys, key.column ∈ columns) {out k' sorted' : List Row}
    (hagree : List.Forall₂ (Agrees σ columns) out k') (hperm : sorted'.Perm k')
    (hsorted : sorted'.Pairwise fun r s => run.sortLe (simplifyOrderKeys σ [] orderKeys) r s = true) :
    ∃ sorted : List Row, sorted.Perm out ∧ List.Forall₂ (Agrees σ columns) sorted sorted' ∧
      sorted.Pairwise fun r s => run.sortLe orderKeys r s = true := by
  obtain ⟨sorted, hsortedPerm, hsortedAgree⟩ := exists_perm_of_forall₂ hagree hperm
  refine ⟨sorted, hsortedPerm, hsortedAgree, ?_⟩
  refine pairwise_of_forall₂ (fun r r' s s' hr hs hle => ?_) hsortedAgree hsorted
  rwa [sortLe_simplifyOrderKeys run hcolumns hr hs (samePartition_nil _ _)]

/-- Where no column is read, only the number of rows a TopN keeps matters. -/
lemma exists_delivers_of_length {input : Node} (orderKeys : List SortKey) (offset : ℕ) (count : ℕ+)
    {l k : List Row} (hl : l ∈ run.Delivers false input) (hlength : l.length = k.length) :
    ∃ out ∈ run.Delivers false (.topN input orderKeys offset count),
      out.length = ((k.drop offset).take count).length := by
  refine ⟨_, ⟨l, hl, l.mergeSort (run.sortLe orderKeys), List.mergeSort_perm _ _,
    List.pairwise_mergeSort (run.sortLe_trans orderKeys) (run.sortLe_total orderKeys) l, rfl⟩, ?_⟩
  simp only [List.length_take, List.length_drop, List.length_mergeSort, hlength]

/-- A TopN over a window may sort rows that the window leaves out. -/
lemma rewriteTopN_sound {rewriteInput : Rewriting} {input : Node} {orderKeys : List SortKey}
    {offset : ℕ} {count : ℕ+} (hkeys : ∀ key ∈ orderKeys, key.column ∈ input.outputColumns catalog)
    (hinput : RewritesSoundly catalog rewriteInput input) :
    RewritesSoundly catalog (rewriteTopN catalog rewriteInput input orderKeys offset count)
      (.topN input orderKeys offset count) := by
  refine blockAt_sound rfl fun required => ?_
  by_cases hunread : (input.outputColumns catalog).all (· ∉ required) = true
  · obtain ⟨newInput, hnewInput, hsound⟩ := hinput (plainContext required)
      { folded := nofun
        columns := nofun
        rankLimit := fun hne => absurd rfl hne }
    refine ⟨((makeLimit (newInput.1, .none) (newInput.1.outputColumns catalog) offset count).1,
      newInput.2), ?_, fun run => ⟨(hsound run).inScope, fun out' hout' => ?_⟩⟩
    · change (if _ then _ else _) = _
      rw [if_pos hunread]
      rw [hnewInput]
      rfl
    · obtain ⟨k', hk', hcuts⟩ := delivers_makeLimit hout'
      obtain ⟨l, hl, full, hfull, out, hkeeps, hagree⟩ := (hsound run).rows k' hk'
      obtain rfl := Run.filtered_nil hfull
      obtain rfl : out = full := hkeeps
      obtain ⟨rows, hrows, hlength⟩ := exists_delivers_of_length orderKeys offset count hl
        hagree.length_eq
      refine ⟨rows, hrows, rows, .of_nil _, rows, rfl, List.forall₂_iff_zip.mpr
        ⟨hlength.trans (congrArg List.length hcuts.cut.symm), fun _ c hc => ?_⟩⟩
      exact absurd hc.1 (of_decide_eq_true (List.all_eq_true.mp hunread c hc.2))
  · set reads := required ++ orderKeys.map (·.column) with hreads
    set rankLimit := if ordersAgree orderKeys input then rankLimitOf offset count else none
      with hrankLimit
    have hagreeKeys : ordersAgree orderKeys input = true →
        input.isWindow = true ∧ input.windowOrderKeys = orderKeys := by
      intro h
      cases input with
      | window _ _ _ windowKeys => exact ⟨rfl, (of_decide_eq_true h).symm⟩
      | _ => cases h
    have hreadKeys : ∀ key ∈ orderKeys, key.column ∈
        (⟨[], reads, reads, rankLimit⟩ : Context).reads catalog input := fun key hkey =>
      ⟨List.mem_append_right _ (List.mem_map_of_mem hkey), hkeys key hkey⟩
    have hbelow : (plainContext required).reads catalog (.topN input orderKeys offset count) ⊆
        (⟨[], reads, reads, rankLimit⟩ : Context).reads catalog input :=
      fun c hc => ⟨List.mem_append_left _ hc.1, hc.2⟩
    have hlimit : LimitFits input offset count rankLimit :=
      limitFits_rankLimitOf _ fun h => (hagreeKeys h).1
    have hsame : rankLimit ≠ none → input.windowOrderKeys = orderKeys := by
      intro hne
      rw [hrankLimit] at hne
      split_ifs at hne with h
      · exact (hagreeKeys h).2
      · exact absurd rfl hne
    obtain ⟨newInput, hnewInput, hsound⟩ := hinput ⟨[], reads, reads, rankLimit⟩
      { folded := nofun
        columns := nofun
        rankLimit := fun hne => ⟨(hlimit.resolve_left hne).1, rfl⟩ }
    refine ⟨finishTopN (input.outputColumns catalog) orderKeys offset count newInput, ?_,
      fun run => ⟨scoped_finishTopN (hsound run).inScope, fun out' hout' => ?_⟩⟩
    · change (if _ then _ else _) = _
      rw [if_neg hunread]
      change (rewriteInput ⟨[], reads, reads, rankLimit⟩ >>= _) = _
      rw [hnewInput]
      rfl
    · obtain ⟨k', hk', sorted', hperm, hsorted', hcuts⟩ := delivers_finishTopN hout'
      obtain ⟨l, hl, full, hfull, out, hkeeps, hagree⟩ := (hsound run).rows k' hk'
      obtain rfl := Run.filtered_nil hfull
      obtain ⟨sorted, hsortedPerm, hsortedAgree, hsorted⟩ := exists_sorted_of_agrees
        hreadKeys hagree hperm hsorted'
      obtain ⟨all, hallPerm, hallSorted, hcut⟩ := exists_sorted_of_keeps hlimit hsame hkeeps
        hsortedPerm hsorted
      have hrows := hcuts.agrees hsortedAgree
      rw [← hcut] at hrows
      have hout : (all.drop offset).take count ∈
          run.Delivers false (.topN input orderKeys offset count) :=
        ⟨_, hl, all, hallPerm, hallSorted, rfl⟩
      refine ⟨_, hout, _, .of_nil _, _, rfl, ?_⟩
      exact hrows.imp fun r r' hr => hr.mono hbelow

/-! ### The pass -/

lemma windowOver {input : Node} {functions : List (RankFunction × Column)}
    {partitionKeys : List Column} {orderKeys : List SortKey}
    (h : (Node.window input functions partitionKeys orderKeys).WellFormed catalog) :
    WindowKey.Over ⟨functions, partitionKeys, orderKeys⟩ catalog input where
  nodup := h.2.1
  bigint f hf := (h.2.2.1 f hf).1
  fresh f hf := (h.2.2.1 f hf).2
  partitionKeys := h.2.2.2.1
  orderKeys := h.2.2.2.2

/-- What a plan that runs delivers, the query may return. -/
lemma delivers_query {run : Run catalog} : ∀ {node : Node} {out : List Row},
    out ∈ run.Delivers true node → out ∈ run.Delivers false node
  | .source _, _, h => h
  | .empty _, _, h => h
  | .filter _ _, _, ⟨l, hl, h⟩ => ⟨l, delivers_query hl, h⟩
  | .project _ _, _, ⟨l, hl, h⟩ => ⟨l, delivers_query hl, h⟩
  | .window _ _ _ _, _, ⟨⟨l, hl, h⟩, _⟩ => ⟨⟨l, delivers_query hl, h⟩, nofun⟩
  | .topNRowNumber _ _ _ _ _ _, _, ⟨l, hl, h⟩ => ⟨l, delivers_query hl, h⟩
  | .rowNumber _ _ _ _, _, ⟨l, hl, h⟩ => ⟨l, delivers_query hl, h⟩
  | .limit _ _ _, _, ⟨l, hl, h⟩ => ⟨l, delivers_query hl, h⟩
  | .topN _ _ _ _, _, ⟨l, hl, h⟩ => ⟨l, delivers_query hl, h⟩

lemma keeps_refl {run : Run catalog} (orderKeys : List SortKey) (rankLimit : Option ℕ+)
    (out : List Row) : Keeps run orderKeys rankLimit out out := by
  cases rankLimit with
  | none => rfl
  | some cap => exact ⟨[], by rw [List.append_nil], nofun⟩

/-- Nodes of the other kinds left as they are, with the conjuncts in a filter above. -/
def Rewriter.keep (catalog : Catalog) : Rewriter catalog where
  rewrite node context := (maybeWrapFilter node context.pending, .none)
  sound run node context _ := by
    refine ⟨Substitutions.scoped_none, fun out' hout' => ?_⟩
    obtain ⟨l, hl, hfilter⟩ := delivers_maybeWrapFilter hout'
    exact ⟨l, delivers_query hl, out', hfilter, out', keeps_refl _ _ _,
      List.forall₂_same.mpr fun _ _ _ _ => rfl⟩

namespace TopTwo

def salary : Column := ⟨0, .bigint⟩

def place : Column := ⟨1, .bigint⟩

def employees : Catalog where
  outputColumns _ := [salary]
  scope _ := {salary}
  output_scope _ _ h := List.mem_singleton.mp h
  registry := ⟨fun _ => none, fun _ => 0, fun _ => false, fun _ => none⟩
  nonDeterministic _ := false

def byRank (conjunct : Expr) : Node :=
  .filter (.window (.source 0) [(.rank, place)] [] [⟨salary, .descNullsLast⟩]) [conjunct]

def atMostTwo : Expr :=
  .call .lte (.ofList [.column place, .literal (.integral ⟨2, by decide⟩) .bigint]) .boolean

end TopTwo

end Verax.Ranking
