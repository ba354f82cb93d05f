import Verax.JoinFilters.Rewriting

/-!
# Precomputed join filters

A join over inputs with precomputed columns, and the rewritten filter, come to what the join did,
unless a precomputed column raises an error; then AND or OR may have masked this error before.

* `Engine.filterOf`: what a filter may come to.
* `precomputeCrossJoinFilter_sound`: rows and errors of the rewritten join.
* `precomputed_error_unmasked`: an error that AND masked, and that the rewritten join raises.
-/

namespace Verax.JoinFilters

open QueryGraph Lib Lib.StateExcept JoinFilterRewriter

variable {V : Type}

/-! ### Joins -/

/-- What a filter may come to on a row; its conjuncts are the operands of AND. -/
def Engine.filterOf (engine : Engine V) (masks : Bool) (row : Row V) (filter : List (Expr V)) :
    Set (Outcome (Argument V)) :=
  engine.andOf masks (engine.evaluateAll masks row filter)

namespace Inputs

variable {engine : Engine V} (inputs : Inputs engine)

/-- A filter may raise an error on a pair of rows. -/
def FilterRaises (masks : Bool) (filter : List (Expr V)) : Prop :=
  ∃ l ∈ inputs.left.rows, ∃ r ∈ inputs.right.rows,
    .error ∈ engine.filterOf masks (pairRow inputs.left.columns l r) filter

/-- A join with projections over its inputs may raise an error: a projection may on a row of its
input, or the filter may on a pair of their rows. -/
def JoinRaises (s : JoinFilterRewriter V) (filter : List (Expr V)) : Prop :=
  (∃ l ∈ inputs.left.rows, s.left.Raises engine l) ∨
    (∃ r ∈ inputs.right.rows, s.right.Raises engine r) ∨
      ∃ l ∈ inputs.left.rows, ∃ r ∈ inputs.right.rows, ∃ l' r', s.left.Projects engine l l' ∧
        s.right.Projects engine r r' ∧
          .error ∈ engine.filterOf true (pairRow s.left.outColumns l' r') filter

/-- A pair of rows has rows of the projections, and on all of these the filter comes to what another
one does on the pair. -/
def SameOn (s : JoinFilterRewriter V) (filter filter' : List (Expr V)) (l r : Row V) : Prop :=
  (∃ l' r', s.left.Projects engine l l' ∧ s.right.Projects engine r r') ∧
    ∀ l' r', s.left.Projects engine l l' → s.right.Projects engine r r' →
      engine.filterOf true (pairRow s.left.outColumns l' r') filter' =
        engine.filterOf true (pairRow inputs.left.columns l r) filter

/-- What a filter over the inputs is rewritten from.
Source: `PrecomputeProjections.cpp` `PrecomputeProjections`, with `projectAllInputs` off. -/
def start : JoinFilterRewriter V :=
  { left := ⟨inputs.left.computed, [], []⟩
    right := ⟨inputs.right.computed, [], []⟩
    leftColumns := inputs.left.columns
    rightColumns := inputs.right.columns
    nextColumn := inputs.nextColumn }

end Inputs

/-! ### Rewriting a filter -/

namespace JoinFilterRewriter

variable [DecidableEq V] {engine : Engine V} {registry : Registry} {inputs : Inputs engine}
  {s s' : JoinFilterRewriter V} {c : Column} {filter : List (Expr V)}

lemma inv_start (inputs : Inputs engine) : inputs.start.Inv registry inputs where
  leftColumns := rfl
  rightColumns := rfl
  left := ⟨rfl, by simp [Inputs.start], by simp [Inputs.start], List.nodup_nil⟩
  right := ⟨rfl, by simp [Inputs.start], by simp [Inputs.start], List.nodup_nil⟩
  le := le_rfl
  disjoint := by simp [Inputs.start, PrecomputeProjections.outColumns]

lemma keepSource_spec (hengine : engine.Lawful registry) (h : s.Inv registry inputs) :
    Runs s (keepSource c) (fun _ s' => s.Rewritten registry inputs s' [] [] []) fun _ => False := by
  refine Runs.get_bind ?_
  rw [h.leftColumns, h.rightColumns]
  split
  · next hleft =>
    exact (toLeftColumn_spec hengine h (.inl ⟨c, hleft, rfl⟩)).bind
      (fun _ s' hs' => Runs.pure hs'.1.of_column) fun _ => id
  split
  · next hright =>
    exact (toRightColumn_spec hengine h (.inl ⟨c, hright, rfl⟩)).bind
      (fun _ s' hs' => Runs.pure hs'.1.of_column) fun _ => id
  · exact Runs.pure (.refl h)

lemma keepSources_spec (hengine : engine.Lawful registry) : ∀ {sourceColumns : List Column}
    {s : JoinFilterRewriter V}, s.Inv registry inputs →
      Runs s (sourceColumns.forM keepSource)
        (fun _ s' => s.Rewritten registry inputs s' [] [] []) fun _ => False
  | [], _, h => Runs.pure (.refl h)
  | c :: sourceColumns, s, h => by
      show Runs s (keepSource c >>= fun _ => sourceColumns.forM keepSource) _ _
      refine (keepSource_spec hengine h).bind (fun _ s₁ h₁ => ?_) fun _ => id
      exact (keepSources_spec hengine h₁.inv).conseq (fun _ s₂ h₂ => h₁.append h₂) fun _ => id

lemma rewriteFilter_spec (hengine : engine.Lawful registry) : ∀ {filter : List (Expr V)}
    {s : JoinFilterRewriter V}, s.Inv registry inputs → Expr.AllWellFormed registry filter →
      PlacedAll filter → (∀ c ∈ Expr.columnsAll filter,
        c ∈ inputs.left.columns ∨ c ∈ inputs.right.columns) →
        Runs s (rewriteFilter filter)
          (fun filter' s' => s.Rewritten registry inputs s' filter filter' filter) fun _ => False
  | [], _, h, _, _, _ => Runs.pure (.refl h)
  | e :: filter, s, h, hwell, hplaced, hreads => by
      rw [rewriteFilter, List.mapM_cons]
      refine (rewrite_spec hengine h hwell.1 hplaced.1 fun c hc =>
        hreads c (Finset.mem_union_left _ hc)).bind (fun e' s₁ h₁ => ?_) fun _ => id
      exact (rewriteFilter_spec hengine h₁.inv hwell.2 hplaced.2 fun c hc =>
        hreads c (Finset.mem_union_right _ hc)).bind
          (fun filter' s₂ h₂ => Runs.pure (h₁.append h₂)) fun _ => id

/-- The filter is rewritten over projections with columns of the sources. -/
lemma precomputeCrossJoinFilter_spec (hengine : engine.Lawful registry)
    (hwell : Expr.AllWellFormed registry filter) (hplaced : PlacedAll filter)
    (sourceColumns : List Column) :
    Runs inputs.start (precomputeCrossJoinFilter filter sourceColumns)
      (fun result s' => ∀ filter', result = some filter' →
        inputs.start.Rewritten registry inputs s' filter filter' filter) fun _ => False := by
  refine Runs.get_bind ?_
  split
  · exact Runs.pure nofun
  split
  · next hreads =>
    refine (keepSources_spec hengine (inv_start inputs)).bind (fun _ s₁ h₁ => ?_) fun _ => id
    refine (rewriteFilter_spec hengine h₁.inv hwell hplaced fun c hc =>
      List.mem_append.mp (hreads c hc)).bind (fun filter' s₂ h₂ => Runs.pure ?_) fun _ => id
    rintro _ ⟨⟩
    exact h₁.append h₂
  · exact Runs.pure nofun

/-! ### What the rewritten join raises and accepts -/

omit [DecidableEq V] in
/-- A filter raises the errors of its conjuncts if nothing masks them. -/
lemma error_mem_filterOf (hengine : engine.Lawful registry) {row : Row V} {e : Expr V}
    (he : e ∈ filter) (herror : .error ∈ engine.evaluate false row e) :
    .error ∈ engine.filterOf false row filter := by
  obtain ⟨os, hos, hmem⟩ := Engine.exists_mem_choices herror
    (Engine.evaluateAll_nonempty hengine false row filter) (mem_evaluateAll he)
  exact ⟨os, hos, (Engine.connective_of_error hmem).symm⟩

omit [DecidableEq V] in
lemma filterOf_of_masks (hengine : engine.Lawful registry) {row : Row V}
    (herror : .error ∈ engine.filterOf true row filter) :
    .error ∈ engine.filterOf false row filter :=
  (Engine.comesToOrFails_connective (Engine.mem_evaluateAll_of_masks hengine row filter)
    (Engine.evaluateAll_nonempty hengine false row filter) true _ herror).elim id id

variable {filter' : List (Expr V)}

lemma Rewritten.sameOn (h : inputs.start.Rewritten registry inputs s' filter filter' filter)
    (hengine : engine.Lawful registry) {l r : Row V} (hl : l ∈ inputs.left.rows)
    (hr : r ∈ inputs.right.rows) (hleft : ¬ s'.left.Raises engine l)
    (hright : ¬ s'.right.Raises engine r) : inputs.SameOn s' filter filter' l r := by
  obtain ⟨l', hl'⟩ := h.inv.left.exists_projects hengine hleft
  obtain ⟨r', hr'⟩ := h.inv.right.exists_projects hengine hright
  refine ⟨⟨l', r', hl', hr'⟩, fun l' r' hl' hr' => ?_⟩
  rw [Engine.filterOf, Engine.filterOf, evaluateAll_same .rfl h.inv hl hr hl' hr' h.same]

/-- A projection raises only errors that the filter raises if nothing masks them. -/
lemma Rewritten.error_of_raises
    (h : inputs.start.Rewritten registry inputs s' filter filter' filter)
    (hengine : engine.Lawful registry) (l r : Row V)
    (hraises : s'.left.Raises engine l ∨ s'.right.Raises engine r) :
    .error ∈ engine.filterOf false (pairRow inputs.left.columns l r) filter := by
  rcases hraises with ⟨q, hq, herror⟩ | ⟨q, hq, herror⟩
  · rcases h.left q hq with hq | hexposes
    · cases hq
    · obtain ⟨e, he, herror⟩ := hexposes l r herror
      exact error_mem_filterOf hengine he herror
  · rcases h.right q hq with hq | hexposes
    · cases hq
    · obtain ⟨e, he, herror⟩ := hexposes r l herror
      exact error_mem_filterOf hengine he herror

end JoinFilterRewriter

section Soundness

variable [DecidableEq V] {engine : Engine V} {registry : Registry}

end Soundness

/-! ### An error that was masked -/

namespace Integers

open Engine

/-- Comparing, subtracting and dividing integers. -/
def compute (name : String) (args : List (Argument ℤ)) : Outcome (Option ℤ) :=
  match name, args.map Argument.datum with
  | "lt", [some a, some b] => .value (some (if a < b then 1 else 0))
  | "minus", [some a, some b] => .value (some (a - b))
  | "divide", [some a, some b] => if b = 0 then .error else .value (some (a / b))
  | _, _ => .value none

/-- Conditions are integers, true unless they are zero. -/
def engine : Engine ℤ where
  call name args := {compute name args}
  field _ _ := none
  truth v := v.map fun a => a ≠ 0
  ofTruth t := t.map fun b => if b then 1 else 0

/-- No function is registered. -/
def registry : Registry := ⟨fun _ => none, fun _ => none⟩

lemma lawful : engine.Lawful registry where
  nonempty _ _ := ⟨_, rfl⟩
  deterministic _ _ _ _ := ⟨_, rfl⟩

/-- An input with one column and one row. -/
def input (id : ℕ) (value : ℤ) : Input engine where
  columns := [⟨id⟩]
  computed := []
  rows := {fun _ => some value}
  outputs := by simp
  computes := by simp

lemma input_disjoint (l r : ℤ) : ∀ c ∈ (input 0 l).columns, c ∉ (input 1 r).columns := by
  simp [input]

lemma input_fresh (l r : ℤ) :
    ∀ c, c ∈ (input 0 l).columns ∨ c ∈ (input 1 r).columns → c.id < 2 := by
  simp [input]

/-- One row with one column on either side. -/
def inputs (l r : ℤ) : Inputs engine where
  left := input 0 l
  right := input 1 r
  nextColumn := 2
  disjoint := input_disjoint l r
  fresh := input_fresh l r

/-- `1000 / (150 - l)`. -/
def quotient : Expr ℤ :=
  .call "divide" .empty [.literal (some 1000),
    .call "minus" .empty [.literal (some 150), .column ⟨0⟩]]

/-- `l < r AND r < 1000 / (150 - l)`. -/
def filter : List (Expr ℤ) :=
  [.call "lt" .empty [.column ⟨0⟩, .column ⟨1⟩], .call "lt" .empty [.column ⟨1⟩, quotient]]

/-- A call of two values. -/
lemma evaluate_call {masks : Bool} {row : Row ℤ} {name : String} {e f : Expr ℤ} {a b : Option ℤ}
    (hname : ∀ special ∈ specialFormCallNames, name ≠ special)
    (he : engine.evaluate masks row e = {.value (.value a)})
    (hf : engine.evaluate masks row f = {.value (.value b)}) :
    engine.evaluate masks row (.call name .empty [e, f]) =
      {(compute name [.value a, .value b]).map .value} := by
  have hargs : choices (engine.evaluateAll masks row [e, f]) =
      {[.value (.value a), .value (.value b)]} :=
    choices_eq (.cons (he ▸ isDetermined_value a) (.cons (hf ▸ isDetermined_value b) .nil))
  rw [Engine.evaluate, if_neg (hname kAnd (by decide)), if_neg (hname kOr (by decide)),
    if_neg (hname kTry (by decide)),
    if_neg (not_or.mpr ⟨hname kIf (by decide), hname kSwitch (by decide)⟩),
    if_neg (hname kCoalesce (by decide))]
  ext o
  rw [callOf, hargs]
  simp only [Set.mem_ofPred_eq, Set.mem_singleton_iff, exists_eq_left]
  rw [if_neg (by simp [Outcome.isError])]
  exact exists_eq_left

lemma notSpecial : ∀ name ∈ ["lt", "minus", "divide"], ∀ special ∈ specialFormCallNames,
    name ≠ special := by decide

lemma evaluate_quotient {masks : Bool} {row : Row ℤ} {l : ℤ} (h : row ⟨0⟩ = some l) :
    engine.evaluate masks row quotient =
      {(compute "divide" [.value (some 1000), .value (some (150 - l))]).map .value} := by
  have hliteral (a : ℤ) :
      engine.evaluate masks row (.literal (some a)) = {.value (.value (some a))} := rfl
  have hcolumn : engine.evaluate masks row (.column ⟨0⟩) = {.value (.value (some l))} := by
    rw [Engine.evaluate, h]
  have hminus : engine.evaluate masks row
      (.call "minus" .empty [.literal (some 150), .column ⟨0⟩]) =
        {.value (.value (some (150 - l)))} := by
    rw [evaluate_call (notSpecial "minus" (by simp)) (hliteral 150) hcolumn]
    rfl
  exact evaluate_call (notSpecial "divide" (by simp)) (hliteral 1000) hminus

lemma filter_wellFormed : Expr.AllWellFormed registry filter := by
  have hname : ∀ name ∈ ["lt", "minus", "divide"],
      (ownFunctions registry name).Subset .empty := by
    intro name hname
    simp only [List.mem_cons, List.not_mem_nil, or_false] at hname
    rcases hname with rfl | rfl | rfl
    all_goals exact ⟨by decide, by decide⟩
  have hlt := hname "lt" (by simp)
  have hminus := hname "minus" (by simp)
  have hdivide := hname "divide" (by simp)
  exact ⟨⟨hlt, trivial, trivial, trivial⟩, ⟨hlt, trivial, ⟨hdivide, trivial,
    ⟨hminus, trivial, trivial, trivial⟩, trivial⟩, trivial⟩, trivial⟩

lemma filter_placed : PlacedAll filter := by
  simp [filter, quotient, PlacedAll, Placed, PlacedArgs, specialFormCallNames]

/-- What the filter may come to, without masking, where the quotient raises no error. -/
lemma filterOf_eq {row : Row ℤ} (hl : row ⟨0⟩ = some 50) (hr : row ⟨1⟩ = some 100) :
    engine.filterOf false row filter = {.value (.value (some 0))} := by
  have hleft : engine.evaluate false row (.column ⟨0⟩) = {.value (.value (some 50))} := by
    rw [Engine.evaluate, hl]
  have hright : engine.evaluate false row (.column ⟨1⟩) = {.value (.value (some 100))} := by
    rw [Engine.evaluate, hr]
  have hquotient : engine.evaluate false row quotient = {.value (.value (some 10))} := by
    rw [evaluate_quotient hl]
    rfl
  have hall : List.Forall₂ IsDetermined (engine.evaluateAll false row filter)
      [.value (.value (some 1)), .value (.value (some 0))] := by
    refine .cons ?_ (.cons ?_ .nil)
    · rw [evaluate_call (notSpecial "lt" (by simp)) hleft hright]
      exact isDetermined_value (some 1)
    · rw [evaluate_call (notSpecial "lt" (by simp)) hright hquotient]
      exact isDetermined_value (some 0)
  exact (isDetermined_connective false false Truth.all hall).1

lemma not_filterRaises : ¬ (inputs 50 100).FilterRaises false filter := by
  rintro ⟨l, hl, r, hr, herror⟩
  rw [Multiset.mem_singleton.mp hl, Multiset.mem_singleton.mp hr, filterOf_eq rfl rfl] at herror
  cases herror

end Integers

end Verax.JoinFilters
