import Verax.LimitAndOrder.Pass

/-!
# The pass preserves results

`Sound` is the condition under which the walk from a node does not go wrong: no Sort is dropped whose
order is read, no bound of zero rows replaces a plan that raises, sums of offsets and counts fit, and
the inputs of one node leave no bound behind.

* `rewrite_refines`: under this condition what a consumer sees of a rewritten node it can see of the
  node under the pending bound, node by node.
* `run_delivers`: the rewritten plan delivers no sequence the plan cannot deliver.
* `LostOrder.run_changes_rows`: plans on which the walk goes wrong.
-/

set_option linter.unusedSectionVars false

namespace Verax.LimitAndOrder

open Verax.Lib Verax.Lib.Deliveries

variable {ρ κ : Type} [DecidableEq κ]

/-! ### Bounds as cuts -/

/-- The rows a pending bound selects. -/
def pendingCut (pending : Option LimitBound) : Cut :=
  match pending with
  | none => .all
  | some bound => bound.cut

/-- Folding bounds is cutting twice. -/
lemma collapse_cut {outer inner : LimitBound} (h : inner.count ≤ kNoCount) :
    (collapse outer inner).cut = outer.cut.after inner.cut := by
  unfold collapse LimitBound.cut Cut.after
  by_cases hinner : inner.count = kNoCount
  · simp [hinner]
  · by_cases houter : outer.count = kNoCount
    · have hne : inner.count - outer.offset ≠ kNoCount := by omega
      simp [hinner, houter, hne]
    · have hne : min outer.count (inner.count - outer.offset) ≠ kNoCount := by omega
      simp [hinner, houter, hne]

lemma foldedBound_cut {pending : Option LimitBound} {here : LimitBound}
    (h : here.count ≤ kNoCount) :
    (foldedBound pending here).cut = (pendingCut pending).after here.cut := by
  cases pending with
  | none =>
    obtain ⟨offset, count⟩ := here
    unfold foldedBound pendingCut Cut.all Cut.after LimitBound.cut
    by_cases hcount : count = kNoCount <;> simp [hcount]
  | some outer => exact collapse_cut h

/-- A bound of no rows. -/
lemma cut_rows_eq_nil {bound : LimitBound} (h : bound.count = 0) (l : List ρ) :
    bound.cut.rows l = [] := by
  have hne : (0 : ℕ) ≠ kNoCount := by decide
  simp [LimitBound.cut, Cut.rows, h, hne]

@[simp] lemma delivers_materialize (pending : Option LimitBound) (node : Node ρ κ) (st : State ρ) :
    Delivers (materialize pending node) st = cutAll (pendingCut pending) (Delivers node st) := by
  cases pending with
  | none => exact (cutAll_all _).symm
  | some bound => rfl

/-! ### When the walk does not go wrong -/

/-- The bound left in the context after a node is rewritten under a pending bound: one that a Limit
folds to zero rows stays there. -/
def leftPending : Node ρ κ → Option LimitBound → Option LimitBound
  | .scan _, _ | .values _, _ | .workingTable .., _ | .unionAll .., _ => none
  | .filter input _, _ | .unnest input _, _ | .sort input _, _ | .topN input .., _
  | .enforceSingleRow input _, _ => leftPending input none
  | .project input _, pending | .inference input _, pending
  | .assignUniqueId input _, pending => leftPending input pending
  | .limit input offset count, pending =>
    let bound := foldedBound pending ⟨offset, count⟩
    if bound.count = 0 then pending else leftPending input (some bound)
  | .join left _ _, _ => leftPending left none
  | .window input spec, pending =>
    if isUnorderedRowNumber spec then leftPending input pending else leftPending input none
  | .barrier inputs _, _ => leftPendingAll inputs none
where
  leftPendingAll : List (Node ρ κ) → Option LimitBound → Option LimitBound
  | [], pending => pending
  | input :: inputs, pending => leftPendingAll inputs (leftPending input pending)

/-- A bound that selects no rows may stand for a plan only if the plan does not raise. -/
def CannotRaise (node : Node ρ κ) : Prop := ∀ st, (Delivers node st).Nonempty

/-- The sum of offset and count that bounds the legs of a union fits. -/
def LegBoundFits (pending : Option LimitBound) : Prop :=
  ∀ bound, pending = some bound → bound.count ≠ kNoCount → bound.offset + bound.count ≤ kNoCount

mutual

/-- **The walk from a node does not go wrong**, where `observed` is how the rows of the node are read
above and `context` is what the walk carries there:
a Sort whose order is read is not dropped; a Limit or TopN folded to zero rows does not raise; sums of
offsets and counts fit; and no input of a node leaves a bound to the next one. -/
def Sound : Node ρ κ → Observed → LimitContext → Prop
  | .scan _, _, _ | .values _, _, _ | .workingTable .., _, _ => True
  | .filter input _, observed, context | .unnest input _, observed, context =>
    Sound input (observed.through (pendingCut context.pending)) ⟨none, context.orderPreserved⟩
  | .project input _, observed, context | .inference input _, observed, context
  | .assignUniqueId input _, observed, context => Sound input observed context
  | .enforceSingleRow input _, _, context => Sound input .rows ⟨none, context.orderPreserved⟩
  | .limit input offset count, observed, context =>
    let bound := foldedBound context.pending ⟨offset, count⟩
    count ≤ kNoCount ∧ bound.offset ≤ kNoCount ∧
      if bound.count = 0 then CannotRaise input
      else Sound input observed.cut { context with pending := some bound }
  | .sort input _, observed, context =>
    (observed = .sequence → context.pending = none → context.orderPreserved = true) ∧
      Sound input .rows ⟨none, false⟩
  | .topN input _ offset count, _, context =>
    let bound := foldedBound context.pending ⟨offset, count⟩
    count ≤ kNoCount ∧ bound.offset ≤ kNoCount ∧
      (context.pending ≠ none → bound.count = 0 → CannotRaise input) ∧
      Sound input .rows ⟨none, false⟩
  | .unionAll inputs _, _, context =>
    LegBoundFits context.pending ∧ SoundLegs inputs ⟨legBound context.pending, false⟩
  | .join left right spec, _, _ =>
    Sound left .rows ⟨none, false⟩ ∧ Sound right .someRows ⟨rightBound spec, false⟩
  | .window input spec, _, context =>
    if isUnorderedRowNumber spec then Sound input .someRows ⟨context.pending, false⟩
    else Sound input .rows ⟨none, false⟩
  | .barrier inputs _, _, _ => SoundInputs inputs

/-- The legs of a union, of each of which any rows will do. -/
def SoundLegs : List (Node ρ κ) → LimitContext → Prop
  | [], _ => True
  | leg :: legs, context => Sound leg .someRows context ∧ SoundLegs legs context

/-- The inputs of a node that are rewritten under one context. -/
def SoundInputs : List (Node ρ κ) → Prop
  | [] => True
  | input :: inputs => Sound input .rows ⟨none, false⟩ ∧
    (inputs ≠ [] → leftPending input none = none) ∧ SoundInputs inputs

end

/-! ### What the walk leaves in the context -/

variable (inlines : Inlines ρ κ)

mutual

/-- The bound left behind; an order once not preserved stays so. -/
lemma rewrite_context : ∀ (node : Node ρ κ) (context : LimitContext),
    (rewrite inlines node context).2.pending = leftPending node context.pending ∧
      (context.orderPreserved = false → (rewrite inlines node context).2.orderPreserved = false)
  | .scan _, context | .values _, context | .workingTable .., context =>
    ⟨rfl, fun h => by simp [rewrite, rewriteScan, rewriteValues, rewriteWorkingTable, limitBarrier, h]⟩
  | .filter input _, context | .unnest input _, context => by
    obtain ⟨hpending, horder⟩ := rewrite_context input ⟨none, context.orderPreserved && true⟩
    exact ⟨hpending, fun h => horder (by simp [h])⟩
  | .project input _, context | .inference input _, context | .assignUniqueId input _, context =>
    rewrite_context input context
  | .enforceSingleRow input _, context => rewrite_context input { context with pending := none }
  | .limit input offset count, context => by
    simp only [rewrite, rewriteLimit, leftPending]
    split
    · exact ⟨rfl, id⟩
    · exact rewrite_context input _
  | .sort input order, context => by
    have h := rewrite_context input ⟨none, false⟩
    have heq : (rewrite inlines (.sort input order) context).2 =
        (rewrite inlines input ⟨none, false⟩).2 := by
      simp only [rewrite, rewriteSort]
      split
      · split <;> rfl
      · split <;> rfl
    rw [heq]
    exact ⟨h.1, fun _ => h.2 rfl⟩
  | .topN input order offset count, context => by
    have h := rewrite_context input ⟨none, false⟩
    have heq : (rewrite inlines (.topN input order offset count) context).2 =
        (rewrite inlines input ⟨none, false⟩).2 := by
      simp only [rewrite, rewriteTopN]
      split
      · split <;> rfl
      · rfl
    rw [heq]
    exact ⟨h.1, fun _ => h.2 rfl⟩
  | .unionAll _ _, context => ⟨rfl, id⟩
  | .join left _ _, context => by
    have h := rewrite_context left ⟨none, false⟩
    exact ⟨h.1, fun _ => h.2 rfl⟩
  | .window input spec, context => by
    simp only [rewrite, rewriteWindow, leftPending, rebuild]
    split
    · have h := rewrite_context input { context with orderPreserved := false }
      exact ⟨h.1, fun _ => h.2 rfl⟩
    · have h := rewrite_context input ⟨none, false⟩
      exact ⟨h.1, fun _ => h.2 rfl⟩
  | .barrier inputs _, context => by
    have h := rewriteInputs_context inputs ⟨none, context.orderPreserved && false⟩
    exact ⟨h.1, fun _ => h.2 (Bool.and_false _)⟩

/-- The same after all inputs of a node. -/
lemma rewriteInputs_context : ∀ (inputs : List (Node ρ κ)) (context : LimitContext),
    (rewriteInputs inlines inputs context).2.pending =
        leftPending.leftPendingAll inputs context.pending ∧
      (context.orderPreserved = false →
        (rewriteInputs inlines inputs context).2.orderPreserved = false)
  | [], context => ⟨rfl, id⟩
  | input :: inputs, context => by
    have h := rewrite_context input context
    have hrest := rewriteInputs_context inputs (rewrite inlines input context).2
    refine ⟨?_, fun ho => hrest.2 (h.2 ho)⟩
    rw [leftPending.leftPendingAll, ← h.1]
    exact hrest.1

end

/-! ### Operators that read their inputs in any order -/

section loops

variable {loop : LoopSpec ρ} {st : State ρ}

lemma LoopSpec.Presents.mono {branch branch' : Set (List ρ)} {rows : List ρ}
    (h : Refines .rows .all branch' branch) (hrows : loop.Presents branch' rows) :
    loop.Presents branch rows := by
  obtain ⟨delivered', hdelivered', hperm⟩ := hrows
  obtain ⟨delivered, hdelivered, hperm'⟩ := h delivered' hdelivered'
  exact ⟨delivered, hdelivered, hperm.trans (hperm'.map _)⟩

/-- Convergence branches that agree up to order. -/
def ConvergenceRefines : Option (Den ρ) → Option (Den ρ) → Prop
  | none, none => True
  | some branch', some branch => ∀ st, Refines .rows .all (branch' st) (branch st)
  | _, _ => False

lemma LoopSpec.Stops.mono {convergence convergence' : Option (Den ρ)} {next all : List ρ}
    {stop : Bool} (h : ConvergenceRefines convergence' convergence)
    (hstop : loop.Stops convergence' st next all stop) : loop.Stops convergence st next all stop := by
  cases convergence' with
  | none =>
    cases convergence with
    | none => exact hstop
    | some _ => exact h.elim
  | some branch' =>
    cases convergence with
    | none => exact h.elim
    | some branch =>
      obtain ⟨row, hrow, hstop⟩ := hstop
      obtain ⟨rows, hrows, hperm⟩ := h _ [row] hrow
      obtain rfl := List.perm_singleton.mp hperm.symm
      exact ⟨row, hrows, hstop⟩

/-- A loop of branches that agree up to order goes through the same states. -/
lemma LoopSpec.Iterates.mono {step step' : Den ρ} {convergence convergence' : Option (Den ρ)}
    (hstep : ∀ st, Refines .rows .all (step' st) (step st))
    (hconvergence : ConvergenceRefines convergence' convergence) {left : ℕ}
    {latest all out : List ρ} (h : loop.Iterates step' convergence' st left latest all out) :
    loop.Iterates step convergence st left latest all out := by
  induction h with
  | bound hfail => exact .bound hfail
  | stop hnext hstops => exact .stop (hnext.mono (hstep _)) (hstops.mono hconvergence)
  | go hnext hstops _ ih => exact .go (hnext.mono (hstep _)) (hstops.mono hconvergence) ih

lemma LoopSpec.denote_subset {anchor anchor' step step' : Den ρ}
    {convergence convergence' : Option (Den ρ)}
    (hanchor : ∀ st, Refines .rows .all (anchor' st) (anchor st))
    (hstep : ∀ st, Refines .rows .all (step' st) (step st))
    (hconvergence : ConvergenceRefines convergence' convergence) :
    loop.denote anchor' step' convergence' st ⊆ loop.denote anchor step convergence st := by
  rintro l ⟨start, out, hstart, hout, hperm⟩
  exact ⟨start, out, hstart.mono (hanchor st), hout.mono hstep hconvergence, hperm⟩

end loops

/-- Inputs that agree up to order, in every state. -/
abbrev AgreeUpToOrder (D' D : Den ρ) : Prop := ∀ st, Refines .rows .all (D' st) (D st)

/-- **An operator does not see the order of its inputs.** -/
theorem Operator.denote_subset {operator : Operator ρ κ} {Ds' Ds : List (Den ρ)}
    (h : List.Forall₂ AgreeUpToOrder Ds' Ds) (st : State ρ) :
    operator.denote Ds' st ⊆ operator.denote Ds st := by
  have hscramble : scramble operator.compute (Ds'.map (· st)) ⊆
      scramble operator.compute (Ds.map (· st)) := by
    apply scramble_subset
    rw [List.forall₂_map_left_iff, List.forall₂_map_right_iff]
    exact h.imp fun _ _ hD => hD st
  cases operator with
  | fixedPoint loop =>
    cases h with
    | nil => exact hscramble
    | cons hanchor h =>
      cases h with
      | nil => exact hscramble
      | cons hstep h =>
        cases h with
        | nil => exact LoopSpec.denote_subset hanchor hstep trivial
        | cons hconvergence h =>
          cases h with
          | nil => exact LoopSpec.denote_subset hanchor hstep hconvergence
          | cons _ _ => exact hscramble
  | _ => exact hscramble

/-- What a union delivers from legs that agree up to order. -/
lemma appendAll_subset {Ds' Ds : List (Set (List ρ))}
    (h : List.Forall₂ (Refines .rows .all) Ds' Ds) : appendAll Ds' ⊆ appendAll Ds := scramble_subset h

lemma Refines.rows_of_someRows {D' D : Set (List ρ)} (h : Refines .someRows .all D' D) :
    Refines .rows .all D' D := by
  intro l' hl'
  obtain ⟨l, hl, m, hm, rfl⟩ := h l' hl'
  exact ⟨l, hl, hm⟩

/-- A join that only asks whether its right side has a row. -/
lemma outcomes_of_existence {spec : JoinSpec ρ κ} (h : readsRightForExistenceOnly spec = true)
    {A B B' : Multiset ρ} (hB : B' = 0 ↔ B = 0) : spec.outcomes A B' = spec.outcomes A B := by
  simp only [readsRightForExistenceOnly, Bool.and_eq_true, Bool.or_eq_true, decide_eq_true_eq,
    List.isEmpty_iff, Bool.not_eq_true'] at h
  obtain ⟨⟨⟨htype, hkeys⟩, hfilter⟩, haware⟩ := h
  have hon : ∀ a b, spec.on a b = true := by
    intro a b
    simp [JoinSpec.on, JoinSpec.keysEqual, JoinSpec.passesFilter, hkeys, hfilter, Truth.holds]
  have hpartner : BagJoin.hasPartner spec.on B' = BagJoin.hasPartner spec.on B := by
    funext a
    rw [Bool.eq_iff_iff, BagJoin.hasPartner_of_forall hon, BagJoin.hasPartner_of_forall hon,
      Ne, Ne, hB]
  have hmark : spec.leftMark B' = spec.leftMark B := by
    funext a
    simp [JoinSpec.leftMark, JoinSpec.mark, haware, hpartner]
  have hmatched : BagJoin.matched spec.on A B' = BagJoin.matched spec.on A B :=
    Multiset.filter_congr fun a _ => by rw [hpartner]
  rcases htype with (htype | htype) | htype
  · simp [JoinSpec.outcomes, htype, hmatched]
  · simp [JoinSpec.outcomes, htype, hmark]
  · simp [JoinSpec.outcomes, htype, hmark]

/-! ### Unordered row numbers -/

/-- The number of a row is its position among the rows of its partition that arrived before. -/
lemma WindowSpec.outputRow_append {W : WindowSpec ρ κ} (h : isUnorderedRowNumber W = true)
    {rows : List ρ} (more : List ρ) {q : ρ × ℕ} (hq : q ∈ rows.zipIdx) :
    W.outputRow (rows ++ more) q = W.outputRow rows q := by
  simp only [isUnorderedRowNumber, Bool.and_eq_true, Option.isNone_iff_eq_none] at h
  obtain ⟨horder, hfunctions⟩ := h
  split at hfunctions
  case h_2 => cases hfunctions
  case h_1 number hsingle =>
    have hmembers : W.partition (rows ++ more) q.1 = W.partition rows q.1 ++
        (more.zipIdx rows.length).filter fun p => W.partitionKeys p.1 = W.partitionKeys q.1 := by
      simp [partition, horder, List.zipIdx_append]
    have hmem : q ∈ W.partition rows q.1 := by
      simp [partition, horder, hq]
    have hfound : (W.partition rows q.1).findIdx (·.2 = q.2) < (W.partition rows q.1).length :=
      List.findIdx_lt_length_of_exists ⟨q, hmem, by simp⟩
    simp only [outputRow, hsingle, List.map_cons, List.map_nil, WindowFunction.value, hmembers,
      List.findIdx_append, if_pos hfound]

/-- Numbering more rows leaves the numbers of those that arrived before. -/
lemma WindowSpec.compute_append {W : WindowSpec ρ κ} (h : isUnorderedRowNumber W = true)
    (rows more : List ρ) : ∃ t, W.compute (rows ++ more) = W.compute rows ++ t := by
  refine ⟨(more.zipIdx rows.length).map (W.outputRow (rows ++ more)), ?_⟩
  rw [compute, List.zipIdx_append, List.map_append, compute, Nat.zero_add]
  congr 1
  exact List.map_congr_left fun q hq => WindowSpec.outputRow_append h more hq

@[simp] lemma WindowSpec.length_compute (W : WindowSpec ρ κ) (rows : List ρ) :
    (W.compute rows).length = rows.length := by
  simp [compute]

/-! ### Nodes -/

section nodes

variable {D D' : Set (List ρ)} {observed : Observed} {pending : Option LimitBound} {st : State ρ}

/-- A node whose rewritten form delivers no other sequences, under its bound. -/
lemma refines_materialize {node node' : Node ρ κ} (h : Delivers node' st ⊆ Delivers node st) :
    Refines observed (pendingCut pending) (Delivers (materialize pending node') st)
      (Delivers node st) := by
  rw [delivers_materialize]
  exact Refines.of_subset h

/-- Folding a projection into its input does not change what it delivers. -/
lemma delivers_inlineInputProject (inlines : Bool) (input : Node ρ κ) (exprs : ρ → ρ) :
    Delivers (inlineInputProject inlines input exprs) st =
      (RowWise.map exprs).deliver (Delivers input st) := by
  unfold inlineInputProject
  split
  · ext l
    constructor
    · rintro ⟨m, hm, hl⟩
      refine ⟨_, ⟨m, hm, rfl⟩, ?_⟩
      show l = (m.map _).map exprs
      rw [List.map_map]
      exact hl
    · rintro ⟨_, ⟨m, hm, rfl⟩, hl⟩
      refine ⟨m, hm, ?_⟩
      show l = m.map _
      rw [← List.map_map]
      exact hl
  · rfl

/-- An empty result stands for a bound of no rows. -/
lemma refines_empty {here : LimitBound} (hcount : here.count ≤ kNoCount)
    (hzero : (foldedBound pending here).count = 0) (hD : D.Nonempty) :
    Refines observed (pendingCut pending) {[]} (cutAll here.cut D) := by
  obtain ⟨l, hl⟩ := hD
  apply Refines.of_sequence
  rintro _ rfl
  refine ⟨_, ⟨l, hl, rfl⟩, ?_⟩
  rw [← Cut.rows_after, ← foldedBound_cut hcount, cut_rows_eq_nil hzero]

/-- Rows up to order of one row at most are the same rows. -/
lemma singleRow_subset (output : Option ρ → ρ) (h : Refines .rows .all D' D) :
    singleRow output D' ⊆ singleRow output D := by
  rintro _ ⟨m', hm', hlen, rfl⟩
  obtain ⟨m, hm, hperm⟩ := h m' hm'
  rw [Cut.rows_all] at hperm
  have heq : m' = m := by
    rcases m' with - | ⟨a, - | ⟨b, m'⟩⟩
    · exact hperm.symm.eq_nil.symm
    · exact (List.perm_singleton.mp hperm.symm).symm
    · simp at hlen
  exact ⟨m, hm, heq ▸ hlen, by rw [heq]⟩

/-- A bound that skips nothing keeps the one row. -/
lemma refines_singleRow (output : Option ρ → ρ) {bound : LimitBound} (hoffset : bound.offset = 0)
    (hcount : bound.count ≠ 0) (h : singleRow output D' ⊆ singleRow output D) :
    Refines observed bound.cut (singleRow output D') (singleRow output D) := by
  apply Refines.of_sequence
  intro l hl
  obtain ⟨m, hm, hlen, rfl⟩ := h hl
  refine ⟨_, ⟨m, hm, hlen, rfl⟩, ?_⟩
  unfold LimitBound.cut Cut.rows
  split
  · rw [hoffset, List.drop_zero]
  · rename_i n hn
    have hpos : 0 < n := by
      simp only at hn
      split at hn
      · cases hn
      · obtain rfl := Option.some.inj hn
        exact Nat.pos_of_ne_zero hcount
    rw [hoffset, List.drop_zero, List.take_of_length_le]
    rw [List.length_singleton]
    exact hpos

/-- A join of rows up to order, of which it needs some of the right ones only where it asks whether
there is any. -/
lemma joined_subset {spec : JoinSpec ρ κ} {L L' R R' : Set (List ρ)} (hL : Refines .rows .all L' L)
    (hR : Refines .someRows (pendingCut (rightBound spec)) R' R) :
    joined spec L' R' ⊆ joined spec L R := by
  rintro l ⟨a', ha', b', hb', hl⟩
  obtain ⟨a, ha, hperm⟩ := hL a' ha'
  obtain ⟨b, hb, m, hm, rfl⟩ := hR b' hb'
  refine ⟨a, ha, b, hb, ?_⟩
  rw [Multiset.coe_eq_coe.mpr (show a'.Perm a from hperm)] at hl
  by_cases hexists : readsRightForExistenceOnly spec = true
  · have hlen : (pendingCut (rightBound spec)).size m.length = min 1 m.length := by
      rw [rightBound, if_pos hexists]
      rfl
    have hnil : ((pendingCut (rightBound spec)).rows m : Multiset ρ) = 0 ↔
        (b : Multiset ρ) = 0 := by
      rw [Multiset.coe_eq_zero, Multiset.coe_eq_zero, ← List.length_eq_zero_iff,
        ← List.length_eq_zero_iff, Cut.length_rows, hlen, hm.length_eq]
      omega
    rw [← outcomes_of_existence hexists hnil]
    exact hl
  · have hcut : pendingCut (rightBound spec) = .all := by
      rw [rightBound, if_neg hexists]
      rfl
    rw [hcut, Cut.rows_all, Multiset.coe_eq_coe.mpr hm] at hl
    exact hl

end nodes

/-! ### The walk -/

/-- The walk carries no bound of zero rows. -/
def PendingKeepsRows (pending : Option LimitBound) : Prop :=
  ∀ bound, pending = some bound → bound.count ≠ 0

/-- The legs of a union, each under the bound of the legs. -/
lemma unionAll_refines {observed : Observed} {pending : Option LimitBound} {inputs' inputs : List (Den ρ)}
    (legColumns : List (ρ → ρ)) (hfits : LegBoundFits pending) {st : State ρ}
    (h : List.Forall₂ (fun D' D : Den ρ =>
      Refines .someRows (pendingCut (legBound pending)) (D' st) (D st)) inputs' inputs) :
    Refines observed (pendingCut pending)
      (cutAll (pendingCut pending) (appendAll (List.zipWith
        (fun f leg => (RowWise.map f).deliver (leg st)) legColumns inputs')))
      (appendAll (List.zipWith (fun f leg => (RowWise.map f).deliver (leg st)) legColumns inputs)) := by
  have hlegs : List.Forall₂ (Refines .someRows (pendingCut (legBound pending)))
      (List.zipWith (fun f leg => (RowWise.map f).deliver (leg st)) legColumns inputs')
      (List.zipWith (fun f leg => (RowWise.map f).deliver (leg st)) legColumns inputs) := by
    induction h generalizing legColumns with
    | nil => simp
    | cons hleg _ ih =>
      cases legColumns with
      | nil => exact .nil
      | cons f legColumns => exact .cons (hleg.rowwise (.map f)) (ih legColumns)
  by_cases hall : pendingCut (legBound pending) = .all
  · rw [hall] at hlegs
    exact Refines.of_subset (appendAll_subset (hlegs.imp fun _ _ => Refines.rows_of_someRows))
  · -- A bounded leg, so a bounded union.
    rcases pending with - | ⟨offset, count⟩
    · exact absurd rfl hall
    · by_cases hcount : count = kNoCount
      · exact absurd (by simp [legBound, hcount, pendingCut]) hall
      · have hsum : offset + count ≠ kNoCount := by
          intro hsum
          exact hall (by simp [legBound, hcount, pendingCut, LimitBound.cut, hsum, Cut.all])
        simp only [legBound, if_neg hcount, pendingCut, LimitBound.cut, if_neg hsum] at hlegs ⊢
        exact Refines.appendAll hlegs

section hooks

variable {st : State ρ} {input : Node ρ κ} {rewriteInput : Rewrite ρ κ} {order : SortOrder ρ}
  {observed : Observed} {context : LimitContext}

/-- A Sort is fused with its bound, kept, or dropped where its order is not read. -/
lemma rewriteSort_refines
    (hread : observed = .sequence → context.pending = none → context.orderPreserved = true)
    (hinput : Refines .rows .all (Delivers (rewriteInput ⟨none, false⟩).1 st) (Delivers input st)) :
    Refines observed (pendingCut context.pending) (Delivers (rewriteSort rewriteInput order context).1 st)
      (Delivers (.sort input order) st) := by
  have hsubset : Delivers (.sort (rewriteInput ⟨none, false⟩).1 order) st ⊆
      Delivers (.sort input order) st := sorted_subset hinput
  unfold rewriteSort
  obtain ⟨pending, orderPreserved⟩ := context
  cases pending with
  | some bound =>
    simp only
    split
    · exact Refines.of_subset hsubset
    · exact refines_materialize hsubset
  | none =>
    simp only [Option.isNone_none, Bool.true_and, Bool.not_eq_true']
    split
    · rename_i hdrop
      have : Std.Total fun a b => order.le a b = true :=
        ⟨fun a b => by simpa using order.total a b⟩
      have : IsTrans ρ fun a b => order.le a b = true := ⟨order.trans⟩
      refine Refines.of_rows hinput.unsorted fun hob => ?_
      exact absurd (hread hob rfl) (by simp [hdrop])
    · show Refines _ Cut.all _ _
      rw [← cutAll_all (Delivers _ st)]
      exact Refines.of_subset hsubset

/-- A pending bound is folded into that of a TopN. -/
lemma rewriteTopN_refines {here : LimitBound} (hcount : here.count ≤ kNoCount)
    (hzero : context.pending ≠ none → (foldedBound context.pending here).count = 0 →
      CannotRaise input)
    (hinput : Refines .rows .all (Delivers (rewriteInput ⟨none, false⟩).1 st) (Delivers input st)) :
    Refines observed (pendingCut context.pending)
      (Delivers (rewriteTopN rewriteInput order here context).1 st)
      (Delivers (.topN input order here.offset here.count) st) := by
  have hsubset : Delivers (.sort (rewriteInput ⟨none, false⟩).1 order) st ⊆
      Delivers (.sort input order) st := sorted_subset hinput
  have hfolded : Refines observed (pendingCut context.pending)
      (cutAll (foldedBound context.pending here).cut
        (Delivers (.sort (rewriteInput ⟨none, false⟩).1 order) st))
      (cutAll here.cut (Delivers (.sort input order) st)) := by
    apply Refines.cut
    rw [← foldedBound_cut hcount]
    exact Refines.of_subset hsubset
  unfold rewriteTopN
  obtain ⟨pending, orderPreserved⟩ := context
  cases pending with
  | none => exact hfolded
  | some bound =>
    simp only
    split
    · rename_i hnone
      refine refines_empty hcount hnone ?_
      obtain ⟨l, hl⟩ := hzero (Option.some_ne_none bound) hnone st
      have hsort := List.perm_insertionSort (fun a b => order.le a b = true) l
      have : Std.Total fun a b => order.le a b = true :=
        ⟨fun a b => by simpa using order.total a b⟩
      have : IsTrans ρ fun a b => order.le a b = true := ⟨order.trans⟩
      exact ⟨_, List.pairwise_insertionSort _ l, l, hl, hsort⟩
    · exact hfolded

end hooks

lemma pendingKeepsRows_none : PendingKeepsRows none := fun _ h => by cases h

lemma PendingKeepsRows.legBound {pending : Option LimitBound} (h : PendingKeepsRows pending) :
    PendingKeepsRows (legBound pending) := by
  rcases pending with - | bound
  · exact pendingKeepsRows_none
  · intro leg hleg
    have := h bound rfl
    simp only [LimitAndOrder.legBound] at hleg
    split at hleg
    · cases hleg
    · obtain rfl := Option.some.inj hleg
      show bound.offset + bound.count ≠ 0
      omega

lemma pendingKeepsRows_rightBound (spec : JoinSpec ρ κ) : PendingKeepsRows (rightBound spec) := by
  intro bound hbound
  unfold rightBound at hbound
  split at hbound
  · obtain rfl := Option.some.inj hbound
    exact Nat.one_ne_zero
  · cases hbound

variable (inlines : Inlines ρ κ)

mutual

/-- **What a consumer sees of the rewritten node it can see of the node under the pending bound.** -/
theorem rewrite_refines : ∀ (node : Node ρ κ) (observed : Observed) (context : LimitContext),
    Sound node observed context → PendingKeepsRows context.pending → ∀ st,
    Refines observed (pendingCut context.pending)
      (Delivers (rewrite inlines node context).1 st) (Delivers node st)
  | .scan _, _, _, _, _, _ => refines_materialize (Set.Subset.refl _)
  | .values _, _, _, _, _, _ => refines_materialize (Set.Subset.refl _)
  | .workingTable .., _, _, _, _, _ => refines_materialize (Set.Subset.refl _)
  | .filter input predicates, observed, context, hsound, hpending, st => by
    have hinput := rewrite_refines input _ _ hsound pendingKeepsRows_none st
    show Refines _ _ (Delivers (materialize _ _) st) _
    rw [delivers_materialize, Bool.and_true]
    exact Refines.inOrder (fun _ _ h => h.filter _) hinput
  | .unnest input expand, observed, context, hsound, hpending, st => by
    have hinput := rewrite_refines input _ _ hsound pendingKeepsRows_none st
    show Refines _ _ (Delivers (materialize _ _) st) _
    rw [delivers_materialize, Bool.and_true]
    exact Refines.inOrder (fun _ _ h => h.flatMap_right _) hinput
  | .project input exprs, observed, context, hsound, hpending, st => by
    show Refines _ _ (Delivers (inlineInputProject _ _ _) st) _
    rw [delivers_inlineInputProject]
    exact (rewrite_refines input observed context hsound hpending st).rowwise (.map exprs)
  | .inference input call, observed, context, hsound, hpending, st =>
    (rewrite_refines input observed context hsound hpending st).rowwise (.map call)
  | .assignUniqueId input idColumn, observed, context, hsound, hpending, st =>
    (rewrite_refines input observed context hsound hpending st).rowwise (.attachIds idColumn)
  | .enforceSingleRow input output, observed, context, hsound, hpending, st => by
    have hinput := singleRow_subset output
      (rewrite_refines input _ _ hsound pendingKeepsRows_none st)
    show Refines _ _ (Delivers (materialize (context.pending.filter _) _) st) _
    rw [delivers_materialize]
    rcases hcase : context.pending with - | bound
    · exact Refines.of_subset hinput
    · by_cases hoffset : 0 < bound.offset
      · simp only [Option.filter, hoffset, decide_true, if_true]
        exact Refines.of_subset hinput
      · simp only [Option.filter, hoffset, decide_false, Bool.false_eq_true, if_false]
        rw [pendingCut, cutAll_all]
        exact refines_singleRow output (Nat.eq_zero_of_not_pos hoffset) (hpending bound hcase) hinput
  | .limit input offset count, observed, context, hsound, hpending, st => by
    obtain ⟨hcount, -, hrest⟩ := hsound
    simp only [rewrite, rewriteLimit]
    split
    · rename_i hzero
      rw [if_pos hzero] at hrest
      exact refines_empty hcount hzero (hrest st)
    · rename_i hzero
      rw [if_neg hzero] at hrest
      have hinput := rewrite_refines input _ _ hrest (fun bound h => by cases h; exact hzero) st
      apply Refines.cut
      rw [← foldedBound_cut hcount]
      exact hinput
  | .sort input order, observed, context, hsound, hpending, st =>
    rewriteSort_refines hsound.1 (rewrite_refines input _ _ hsound.2 pendingKeepsRows_none st)
  | .topN input order offset count, observed, context, hsound, hpending, st =>
    rewriteTopN_refines hsound.1 hsound.2.2.1
      (rewrite_refines input _ _ hsound.2.2.2 pendingKeepsRows_none st)
  | .unionAll inputs legColumns, observed, context, hsound, hpending, st => by
    obtain ⟨hfits, hlegs⟩ := hsound
    have hlegs := rewriteLegs_refines inputs _ hlegs hpending.legBound st
    show Refines _ _ (Delivers (materialize _ _) st) _
    rw [delivers_materialize]
    exact unionAll_refines legColumns hfits hlegs
  | .join left right spec, observed, context, hsound, hpending, st => by
    have hleft := rewrite_refines left _ _ hsound.1 pendingKeepsRows_none st
    have hright := rewrite_refines right _ _ hsound.2 (pendingKeepsRows_rightBound spec) st
    exact refines_materialize (joined_subset hleft hright)
  | .window input spec, observed, context, hsound, hpending, st => by
    simp only [rewrite, rewriteWindow]
    simp only [Sound] at hsound
    split
    · rename_i hunordered
      rw [if_pos hunordered] at hsound
      have hinput := rewrite_refines input _ _ hsound hpending st
      exact Refines.arrival (fun _ => rfl) spec.length_compute
        (WindowSpec.compute_append hunordered) hinput
    · rename_i hunordered
      rw [if_neg hunordered] at hsound
      have hinput := rewrite_refines input _ _ hsound pendingKeepsRows_none st
      exact refines_materialize (scramble_subset (.cons hinput .nil))
  | .barrier inputs operator, observed, context, hsound, hpending, st => by
    have hinputs := rewriteInputs_refines inputs hsound
    show Refines _ _ (Delivers (materialize _ _) st) _
    rw [Bool.and_false]
    exact refines_materialize (Operator.denote_subset hinputs st)

/-- The legs of a union. -/
theorem rewriteLegs_refines : ∀ (legs : List (Node ρ κ)) (bound : Option LimitBound),
    SoundLegs legs ⟨bound, false⟩ → PendingKeepsRows bound → ∀ st,
    List.Forall₂ (fun D' D : Den ρ => Refines .someRows (pendingCut bound) (D' st) (D st))
      (deliversAll (rewriteLegs inlines legs bound)) (deliversAll legs)
  | [], _, _, _, _ => .nil
  | leg :: legs, bound, hsound, hpending, st =>
    .cons (rewrite_refines leg _ _ hsound.1 hpending st)
      (rewriteLegs_refines legs bound hsound.2 hpending st)

/-- The inputs of a node, one after the other. -/
theorem rewriteInputs_refines : ∀ (inputs : List (Node ρ κ)), SoundInputs inputs →
    List.Forall₂ AgreeUpToOrder (deliversAll (rewriteInputs inlines inputs ⟨none, false⟩).1)
      (deliversAll inputs)
  | [], _ => .nil
  | input :: inputs, hsound => by
    obtain ⟨hinput, hleft, hrest⟩ := hsound
    refine .cons (rewrite_refines input _ _ hinput pendingKeepsRows_none) ?_
    by_cases hnil : inputs = []
    · subst hnil
      exact .nil
    · obtain ⟨hpending, horder⟩ := rewrite_context inlines input ⟨none, false⟩
      have hcontext : (rewrite inlines input ⟨none, false⟩).2 = ⟨none, false⟩ := by
        exact LimitContext.ext (hpending.trans (hleft hnil)) (horder rfl)
      rw [hcontext]
      exact rewriteInputs_refines inputs hrest

end

/-- **The pass preserves results** of a plan over which the walk does not go wrong. -/
theorem run_delivers (inlines : Inlines ρ κ) {root : Node ρ κ}
    (h : Sound root .sequence ⟨none, true⟩) (st : State ρ) :
    Delivers (run inlines root) st ⊆ Delivers root st := by
  intro l hl
  obtain ⟨l', hl', heq⟩ := rewrite_refines inlines root _ _ h pendingKeepsRows_none st l hl
  rw [heq]
  exact hl'

/-! ### Where the walk goes wrong -/

namespace LostOrder

/-- Numbers in ascending order. -/
def ascending : SortOrder ℕ where
  le a b := a ≤ b
  total a b := by simpa using Nat.le_total a b
  trans a b c := by simpa using Nat.le_trans

/-- No loop around the plan. -/
def noState : State ℕ := fun _ => ([], [])

/-- The smallest of two numbers, collected: a Limit over a Filter over a Sort, below an Aggregate. -/
def smallest : Node ℕ ℕ :=
  .barrier [.limit (.filter (.sort (.scan [2, 1]) ascending) []) 0 1] (.aggregate id)

/-- One of two rows asserted to be the only one, of which none is asked for. -/
def noneOfTwo : Node ℕ ℕ := .limit (.enforceSingleRow (.values [1, 2]) fun row => row.getD 0) 0 0

/-- A loop of one iteration that returns its last state. -/
def once : LoopSpec ℕ := ⟨0, 1, false, .replace, id, fun _ => true⟩

/-- A loop whose anchor is cut to no rows and then to one, and whose step returns two rows. -/
def twoRows : Node ℕ ℕ :=
  .barrier [.limit (.limit (.scan []) 0 0) 0 1,
    .barrier [.workingTable 0 .latestDelta id] (.aggregate fun _ => [1, 2])]
    (.fixedPoint once)

lemma delivers_smallest {l : List ℕ} (h : l ∈ Delivers smallest noState) : l = [1] := by
  obtain ⟨m, ⟨_, ⟨s, ⟨hsorted, s', hs', hperm⟩, rfl⟩, rfl⟩, k, hk, out, hout, hl⟩ :=
    mem_scramble_one.mp h
  obtain rfl : s = [1, 2] := by
    have hperm : s.Perm [1, 2] := (hperm.trans hs').trans (List.Perm.swap 1 2 [])
    refine hperm.eq_of_pairwise ?_ hsorted (by simp [ascending])
    intro a b _ _ hab hba
    exact Nat.le_antisymm (by simpa [ascending] using hab) (by simpa [ascending] using hba)
  obtain rfl := Option.some.inj hout
  have hk : k = [1] := List.perm_singleton.mp hk
  rw [hk] at hl
  exact List.perm_singleton.mp hl

lemma length_twoRows {l : List ℕ} (h : l ∈ Delivers twoRows noState) : l.length = 2 := by
  obtain ⟨start, out, -, hout, hl⟩ := h
  rw [hl.length_eq]
  -- The loop runs one iteration, which delivers two rows.
  have hnext : ∀ {next latest all : List ℕ}, once.Presents (Delivers
      (.barrier [.workingTable 0 .latestDelta id] (.aggregate fun _ => [1, 2]) : Node ℕ ℕ)
      (State.enter noState 0 latest all)) next → next.length = 2 := by
    rintro next latest all ⟨delivered, hdelivered, hperm⟩
    obtain ⟨_, _, _, _, rows, hrows, hrows'⟩ := mem_scramble_one.mp hdelivered
    obtain rfl := Option.some.inj hrows
    rw [hperm.length_eq, List.length_map, hrows'.length_eq]
    rfl
  cases hout with
  | stop h _ => exact hnext h
  | go h _ hrest =>
    cases hrest with
    | bound _ => exact hnext h

/-- Where a Limit reads the order of a Sort below an Aggregate, through a Filter, the Sort is dropped;
a bound of no rows takes the place of rows that raise; and a bound left behind by the anchor of a loop
cuts its step. -/
theorem run_changes_rows :
    ([2] ∈ Delivers (run (fun _ _ => false) smallest) noState ∧ [2] ∉ Delivers smallest noState) ∧
    ([] ∈ Delivers (run (fun _ _ => false) noneOfTwo) noState ∧
      [] ∉ Delivers noneOfTwo noState) ∧
    ([1] ∈ Delivers (run (fun _ _ => false) twoRows) noState ∧
      [1] ∉ Delivers twoRows noState) := by
  refine ⟨⟨?_, fun h => ?_⟩, ⟨rfl, fun h => ?_⟩, ⟨?_, fun h => ?_⟩⟩
  · refine mem_scramble_one.mpr ⟨[2], ⟨[2, 1], ⟨[2, 1], List.Perm.refl _, rfl⟩, rfl⟩, ?_⟩
    exact ⟨[2], List.Perm.refl _, [2], rfl, List.Perm.refl _⟩
  · cases delivers_smallest h
  · obtain ⟨_, ⟨m, rfl, hlen, rfl⟩, -⟩ := h
    simp at hlen
  · refine ⟨[], [1], ⟨[], rfl, List.Perm.refl _⟩, ?_, List.Perm.refl _⟩
    have hstops : once.Stops none noState [1] [1] false := rfl
    refine .go ?_ hstops (.bound rfl)
    refine ⟨[1], ⟨[1, 2], mem_scramble_one.mpr ⟨[], List.Perm.refl _, [], List.Perm.refl _, ?_⟩, rfl⟩,
      List.Perm.refl _⟩
    exact ⟨[1, 2], rfl, List.Perm.refl _⟩
  · have := length_twoRows h
    cases this

/-- A Limit whose bound reaches the Sort, through a projection. -/
def smallestDoubled : Node ℕ ℕ :=
  .barrier [.limit (.project (.sort (.scan [2, 1]) ascending) (2 * ·)) 0 1] (.aggregate id)

/-- The bound is fused with the Sort. -/
theorem run_delivers_smallestDoubled :
    Delivers (run (fun _ _ => false) smallestDoubled) noState ⊆ Delivers smallestDoubled noState := by
  apply run_delivers
  refine ⟨⟨by decide, by decide, ?_⟩, fun h => absurd rfl h, trivial⟩
  rw [if_neg (by decide)]
  exact ⟨fun h => (by cases h), trivial⟩

end LostOrder
end Verax.LimitAndOrder
