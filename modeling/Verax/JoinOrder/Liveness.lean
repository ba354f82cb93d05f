import Verax.JoinOrder.Completeness

/-!
# Memo liveness

A plan of the memo points at the plans below it, and `PlanSet.addPlan` erases dominated plans. What
is erased must not be pointed at. Here plans are values, so a plan is *owned* when the memo still
stores an equal one, or when it is an exchange, which the list of enforcement operators keeps, over
a stored one.

* `Live`: what the memo stores under a set covers the set, and what it points at is owned and covers
  one of the sets given as sides.
* `considerCandidate_live`: considering a join of two sides keeps this, as long as the set that the
  candidates are recorded under is no side so far. Leaves are only ever added (`CostsLeaves`).
* `solveComponent_live`: the dynamic program meets its pairs in an order in which this is so,
  whatever the budget.
-/

set_option linter.unusedSectionVars false

namespace Verax.JoinOrder

open Verax.Lib.StateExcept Verax.Lib.SubsetGrowth Verax.Lib.ConnectedPairs
open Enumerator

variable {F σ : Type} [Add F] [BEq F] [LT F] [DecidableLT F]

/-! ### What is owned -/

/-- The operators an operator points at.
Source: `MemoOp.h` `JoinOp::left`, `JoinOp::right`, `UnnestOp::input`, `ExchangeOp::input`. -/
def MemoOp.children : MemoOp F → List (MemoOp F)
  | leaf .. => []
  | join _ left right .. => [left, right]
  | unnest _ input .. => [input]
  | exchange _ input _ => [input]

@[simp] lemma MemoOp.children_withCost (c : Cost F) (op : MemoOp F) :
    (op.withCost c).children = op.children := by
  cases op <;> rfl

/-- The memo stores an operator under the relations it covers. -/
def State.Stored (st : State F σ) (op : MemoOp F) : Prop := op ∈ st.memo op.cover

/-- An operator that is stored, or an exchange over one that is. -/
def State.Owned (st : State F σ) (op : MemoOp F) : Prop :=
  st.Stored op ∨ ∃ c input p, op = .exchange c input p ∧ st.Stored input

/-- What the leaf of each relation costs, and the states of a cost model that agree. -/
structure LeafCosts (F σ : Type) where
  cost : ℕ → Cost F
  known : σ → Prop

/-- The cost of a leaf depends neither on how its relation is read nor on what was costed before,
and moving its rows never makes a leaf cheaper. -/
structure CostsLeaves (costModel : CostModel F σ) (leaves : LeafCosts F σ) : Prop where
  leaf : ∀ s id p, leaves.known s →
    (costModel.cost s (.leaf ⟨none, none⟩ id p)).1 = leaves.cost id
  keeps : ∀ s op, leaves.known s →
    (∀ id, op.cover = {id} → ∃ p, op = .leaf ⟨none, none⟩ id p) →
      leaves.known (costModel.cost s op).2
  shuffle : ∀ id p a b, (leaves.cost id).cost = some a →
    costModel.shuffleCost (.leaf (leaves.cost id) id p) = some b → ¬ a + b < a
  irrefl : ∀ a : F, ¬ a < a

/-- What the memo stores under a set covers it; a set of one relation has only its leaves; and what
a stored operator points at is owned and covers a side. -/
structure Live (leaves : LeafCosts F σ) (sides : RelationSet → Prop) (st : State F σ) : Prop where
  known : leaves.known st.costState
  cover : ∀ S, ∀ op ∈ st.memo S, op.cover = S
  single : ∀ id, ∀ op ∈ st.memo {id}, ∃ p, op = .leaf (leaves.cost id) id p
  children : ∀ S, ∀ op ∈ st.memo S, ∀ child ∈ op.children, sides child.cover ∧ st.Owned child

variable {env : Env F σ} {leaves : LeafCosts F σ} {sides sides' : RelationSet → Prop}
  {st st' : State F σ}

lemma Live.mono (h : Live leaves sides st) (hsides : ∀ S, sides S → sides' S) :
    Live leaves sides' st :=
  ⟨h.known, h.cover, h.single, fun S op hop child hchild =>
    ⟨hsides _ (h.children S op hop child hchild).1, (h.children S op hop child hchild).2⟩⟩

lemma Live.of_memo (h : Live leaves sides st) (hmemo : st'.memo = st.memo)
    (hknown : leaves.known st'.costState) : Live leaves sides st' := by
  refine ⟨hknown, hmemo ▸ h.cover, hmemo ▸ h.single, fun S op hop child hchild => ?_⟩
  have hlive := h.children S op (hmemo ▸ hop) child hchild
  refine ⟨hlive.1, hlive.2.imp (fun hstored => ?_) fun ⟨c, input, p, heq, hstored⟩ =>
    ⟨c, input, p, heq, ?_⟩⟩
  · rwa [State.Stored, hmemo]
  · rwa [State.Stored, hmemo]

/-- What is stored under a side stays stored. -/
def Keeps (sides : RelationSet → Prop) (st st' : State F σ) : Prop :=
  ∀ S, sides S → ∀ op ∈ st.memo S, op ∈ st'.memo S

lemma Keeps.owned (h : Keeps sides st st') {op : MemoOp F} (hside : sides op.cover)
    (howned : st.Owned op) : st'.Owned op := by
  rcases howned with hstored | ⟨c, input, p, rfl, hstored⟩
  · exact .inl (h _ hside op hstored)
  · exact .inr ⟨c, input, p, rfl, h _ hside input hstored⟩

/-- **Adding a plan keeps the memo live** if nothing stored under a side is erased. -/
lemma Live.add (h : Live leaves sides st) {S : RelationSet} {op : MemoOp F}
    (hcover : op.cover = S)
    (hsingle : ∀ id, S = {id} → ∃ p, op = .leaf (leaves.cost id) id p)
    (hchildren : ∀ child ∈ op.children, sides child.cover ∧ st.Owned child)
    (hkeeps : Keeps sides st (addPlan env S op st)) :
    Live leaves sides (addPlan env S op st) := by
  have hmem : ∀ T, ∀ q ∈ (addPlan env S op st).memo T, q ∈ st.memo T ∨ T = S ∧ q = op := by
    intro T q hq
    unfold Enumerator.addPlan at hq
    simp only at hq
    split at hq
    · rename_i hT
      subst hT
      exact (PlanSet.mem_addPlan hq).imp id fun hq => ⟨rfl, hq⟩
    · exact .inl hq
  refine ⟨h.known, fun T q hq => ?_, fun id q hq => ?_, fun T q hq child hchild => ?_⟩
  · rcases hmem T q hq with hq | ⟨rfl, rfl⟩
    · exact h.cover T q hq
    · exact hcover
  · rcases hmem {id} q hq with hq | ⟨hid, rfl⟩
    · exact h.single id q hq
    · exact hsingle id hid.symm
  · have hlive : sides child.cover ∧ st.Owned child := by
      rcases hmem T q hq with hq | ⟨rfl, rfl⟩
      · exact h.children T q hq child hchild
      · exact hchildren child hchild
    exact ⟨hlive.1, hkeeps.owned hlive.1 hlive.2⟩

variable (env) in
/-- Adding a plan under a set erases nothing under others. -/
lemma keeps_addPlan {S : RelationSet} {op : MemoOp F} (hS : ¬ sides S) :
    Keeps sides st (addPlan env S op st) := by
  intro T hT q hq
  unfold Enumerator.addPlan
  simp only
  split
  · rename_i heq
    exact absurd (heq ▸ hT) hS
  · exact hq

/-! ### Leaves -/

section leaves

variable (hcosts : CostsLeaves env.costModel leaves)
include hcosts

/-- A leaf erases no leaf of the same relation. -/
lemma not_dominatedByCandidate {id : ℕ} {p p' : Partitioning} {cost : F}
    (hcost : (leaves.cost id).cost = some cost) :
    PlanSet.dominatedByCandidate env.costModel (.leaf (leaves.cost id) id p)
      (.leaf (leaves.cost id) id p') cost = false := by
  have htie : (MemoOp.leaf (leaves.cost id) id p').tieKey =
      (MemoOp.leaf (leaves.cost id) id p).tieKey := rfl
  have hexisting : (MemoOp.leaf (leaves.cost id) id p').cost.cost = some cost := hcost
  unfold PlanSet.dominatedByCandidate PlanSet.costAsPartitioning
  rw [hexisting, htie]
  simp only [lt_irrefl, decide_false, Bool.and_false, Bool.or_false]
  split_ifs
  · exact decide_eq_false (hcosts.irrefl cost)
  · cases hshuffle : env.costModel.shuffleCost (.leaf (leaves.cost id) id p) with
    | none => rfl
    | some b => exact decide_eq_false (hcosts.shuffle id p cost b hcost hshuffle)

/-- Adding a leaf erases nothing. -/
lemma keeps_addPlan_leaf (h : Live leaves sides st) (id : ℕ) (p : Partitioning) :
    Keeps sides st (addPlan env {id} (.leaf (leaves.cost id) id p) st) := by
  intro T _ q hq
  unfold Enumerator.addPlan
  simp only
  split
  · rename_i hT
    subst hT
    obtain ⟨p', rfl⟩ := h.single id q hq
    unfold PlanSet.addPlan
    split
    · exact List.mem_append_left _ hq
    · rename_i cost hcost
      split
      · exact hq
      · refine List.mem_append_left _ (List.mem_filter.mpr ⟨hq, ?_⟩)
        rw [not_dominatedByCandidate hcosts hcost]
        rfl
  · exact hq

/-- **Adding a leaf keeps the memo live** and erases nothing. -/
lemma Live.add_leaf (h : Live leaves sides st) (id : ℕ) (p : Partitioning) :
    Live leaves sides (addPlan env {id} (.leaf (leaves.cost id) id p) st) ∧
      Keeps sides st (addPlan env {id} (.leaf (leaves.cost id) id p) st) := by
  have hkeeps := keeps_addPlan_leaf hcosts h id p
  refine ⟨h.add rfl (fun id' hid => ?_) (fun child hchild => absurd hchild List.not_mem_nil) hkeeps,
    hkeeps⟩
  obtain rfl := Finset.singleton_inj.mp hid
  exact ⟨_, rfl⟩

/-- A leaf is costed the same each time. -/
lemma Live.costed_leaf (h : Live leaves sides st) (id : ℕ) (p : Partitioning) :
    (costed env (.leaf ⟨none, none⟩ id p) st).1 = .leaf (leaves.cost id) id p ∧
      Live leaves sides (costed env (.leaf ⟨none, none⟩ id p) st).2 := by
  refine ⟨?_, h.of_memo rfl (hcosts.keeps _ _ h.known fun id' hid => ?_)⟩
  · rw [← hcosts.leaf st.costState id p h.known]
    rfl
  · obtain rfl := Finset.singleton_inj.mp hid
    exact ⟨p, rfl⟩

/-! ### Considering a join -/

/-- What considering a join of two sides does to the memo: it stays live, and what is stored under
a side stays. -/
def Considers (leaves : LeafCosts F σ) (sides : RelationSet → Prop) (st st' : State F σ) : Prop :=
  Live leaves sides st' ∧ Keeps sides st st'

omit hcosts in
lemma Considers.trans {st₁ st₂ st₃ : State F σ} (h : Considers leaves sides st₁ st₂)
    (h' : Considers leaves sides st₂ st₃) : Considers leaves sides st₁ st₃ :=
  ⟨h'.1, fun S hS op hop => h'.2 S hS op (h.2 S hS op hop)⟩

omit hcosts in
lemma Live.considers (h : Live leaves sides st) (hmemo : st'.memo = st.memo)
    (hknown : leaves.known st'.costState) : Considers leaves sides st st' :=
  ⟨h.of_memo hmemo hknown, fun _ _ _ hop => hmemo ▸ hop⟩

/-- A plan that may stand for a side. -/
def Offered (st : State F σ) (S : RelationSet) (op : MemoOp F) : Prop :=
  op.cover = S ∧ st.Owned op

omit hcosts in
lemma Considers.offered (h : Considers leaves sides st st') {S : RelationSet} {op : MemoOp F}
    (hS : sides S) (hop : Offered st S op) : Offered st' S op :=
  ⟨hop.1, h.2.owned (hop.1 ▸ hS) hop.2⟩

omit hcosts in
lemma Live.offered (h : Live leaves sides st) {S : RelationSet} {op : MemoOp F}
    (hop : op ∈ st.memo S) : Offered st S op := by
  have hcover := h.cover S op hop
  exact ⟨hcover, .inl (by rwa [State.Stored, hcover])⟩

omit hcosts in
lemma Live.offered_exchange (h : Live leaves sides st) {S : RelationSet} {op : MemoOp F}
    (hop : op ∈ st.memo S) (c : Cost F) (p : Partitioning) : Offered st S (.exchange c op p) := by
  have hcover := h.cover S op hop
  exact ⟨hcover, .inr ⟨c, op, p, rfl, by rwa [State.Stored, hcover]⟩⟩

/-- A set of several relations that is no side, under which candidates may be recorded. -/
structure Fresh (sides : RelationSet → Prop) (U : RelationSet) : Prop where
  notSide : ¬ sides U
  several : ∀ id, U ≠ {id}

/-- The two sides of a join whose candidates may be recorded under their union. -/
structure Sides (sides : RelationSet → Prop) (A B : RelationSet) : Prop where
  left : sides A
  right : sides B
  union : Fresh sides (A ∪ B)

omit hcosts in
lemma Sides.symm {A B : RelationSet} (h : Sides sides A B) : Sides sides B A :=
  ⟨h.right, h.left, Finset.union_comm A B ▸ h.union⟩

variable {shape : Shape} {A B : RelationSet}

lemma addCandidate_live (h : Live leaves sides st) {U : RelationSet} (hU : Fresh sides U)
    {op : MemoOp F} (hcover : op.cover = U)
    (hchildren : ∀ child ∈ op.children, sides child.cover ∧ st.Owned child) :
    Considers leaves sides st (addCandidate env U op st) := by
  unfold addCandidate costed
  set r := env.costModel.cost st.costState op with hr
  have hst : Considers leaves sides st
      { st with budget := st.budget.consume, costState := r.2 } :=
    h.considers rfl (hcosts.keeps _ _ h.known fun id hid =>
      absurd (hcover.symm.trans hid) (hU.several id))
  simp only
  split
  · exact hst
  · have hkeeps : Keeps sides { st with budget := st.budget.consume, costState := r.2 }
        (addPlan env U (op.withCost r.1)
          { st with budget := st.budget.consume, costState := r.2 }) :=
      keeps_addPlan env hU.notSide
    refine hst.trans ⟨hst.1.add (by rw [MemoOp.cover_withCost, hcover]) (fun id hid => ?_)
      (fun child hchild => ?_) hkeeps, hkeeps⟩
    · exact absurd hid (hU.several id)
    · rw [MemoOp.children_withCost] at hchild
      exact ⟨(hchildren child hchild).1,
        hst.2.owned (hchildren child hchild).1 (hchildren child hchild).2⟩

lemma addDistributedJoinCandidate_live (h : Live leaves sides st) (hsides : Sides sides A B)
    (hshape : shape.combined = A ∪ B) (lk rk : List Expr) {l r : MemoOp F}
    (hl : Offered st A l) (hr : Offered st B r) :
    Considers leaves sides st (addDistributedJoinCandidate env shape lk rk l r st) := by
  unfold addDistributedJoinCandidate
  rw [hshape]
  refine addCandidate_live hcosts h hsides.union (by rw [← hl.1, ← hr.1]; rfl)
    fun child hchild => ?_
  rcases List.mem_cons.mp hchild with rfl | hchild
  · exact ⟨hl.1 ▸ hsides.left, hl.2⟩
  · obtain rfl := List.mem_singleton.mp hchild
    exact ⟨hr.1 ▸ hsides.right, hr.2⟩

lemma addIfBoth_live (h : Live leaves sides st) (hsides : Sides sides A B)
    (hshape : shape.combined = A ∪ B) (lk rk : List Expr) {l r : Option (MemoOp F)}
    (hl : ∀ op, l = some op → Offered st A op) (hr : ∀ op, r = some op → Offered st B op) :
    Considers leaves sides st (addIfBoth env shape lk rk l r st) := by
  cases l with
  | none => exact h.considers rfl h.known
  | some l =>
      cases r with
      | none => exact h.considers rfl h.known
      | some r =>
          exact addDistributedJoinCandidate_live hcosts h hsides hshape lk rk (hl l rfl) (hr r rfl)

omit hcosts in
lemma bestOnPartitioning_offered (h : Live leaves sides st) {S : RelationSet} {p : Partitioning}
    {op : MemoOp F} (hop : bestOnPartitioning env st S p = some op) : Offered st S op := by
  unfold bestOnPartitioning at hop
  split at hop
  · cases hop
  · rename_i plan cost hbest
    have hplan := (PlanSet.best_mem hbest).1
    split at hop
    · exact Option.some.inj hop ▸ h.offered hplan
    · split at hop
      · cases hop
      · exact Option.some.inj hop ▸ h.offered_exchange hplan _ _

omit hcosts in
lemma replicatedChild_offered (h : Live leaves sides st) {S : RelationSet} {p : Partitioning}
    {op : MemoOp F} (hop : replicatedChild env st S p = some op) : Offered st S op := by
  unfold replicatedChild at hop
  split at hop
  · cases hop
  · rename_i base hbase
    have hplan := PlanSet.cheapest_mem hbase
    split at hop
    · cases hop
    · split at hop
      · exact Option.some.inj hop ▸ h.offered hplan
      · split at hop
        · exact bestOnPartitioning_offered h hop
        · exact Option.some.inj hop ▸ h.offered_exchange hplan _ _

omit hcosts in
lemma gatheredSmall_offered (h : Live leaves sides st) {input op : MemoOp F}
    (hop : gatheredSmall env st input = some op) : Offered st input.cover op := by
  unfold gatheredSmall at hop
  split at hop
  · cases hop
  · exact bestOnPartitioning_offered h hop

omit hcosts in
lemma aligned_offered (h : Live leaves sides st) {S : RelationSet} {keys : List Expr}
    {kept : Offer F} {op : MemoOp F} (hop : aligned env st S keys kept = some op) :
    Offered st S op := by
  unfold aligned at hop
  split at hop
  · exact bestOnPartitioning_offered h hop
  · exact bestOnPartitioning_offered h hop

/-- Reading a relation grouped adds a leaf at most. -/
lemma partitioningsOn_live (h : Live leaves sides st) (S : RelationSet) (keys : List Expr) :
    Considers leaves sides st (partitioningsOn env S keys st).2 ∧
      ∀ op, op ∈ (partitioningsOn env S keys st).1.1 ∨ op ∈ (partitioningsOn env S keys st).1.2 →
        Offered (partitioningsOn env S keys st).2 S op := by
  have hmem : ∀ {st : State F σ} {ks : List Expr}, Live leaves sides st → ∀ op,
      op ∈ (PlanSet.partitioningsOnSubsets (st.memo S) ks).1 ∨
        op ∈ (PlanSet.partitioningsOnSubsets (st.memo S) ks).2 → Offered st S op := by
    intro st ks h op hop
    refine h.offered ?_
    rcases hop with hop | hop
    · exact List.mem_of_mem_filter (List.mem_of_mem_filter hop)
    · exact List.mem_of_mem_filter (List.mem_of_mem_filter hop)
  unfold partitioningsOn
  simp only
  split
  · exact ⟨h.considers rfl h.known, hmem h⟩
  · rename_i hcond
    simp only [Bool.or_eq_true, not_or, Bool.not_eq_true', decide_eq_true_eq, not_not,
      ne_eq] at hcond
    obtain ⟨id, rfl⟩ := Finset.card_eq_one.mp hcond.1.2
    have hmin : RelationSet.min {id} = id :=
      Finset.mem_singleton.mp (RelationSet.min_mem (Finset.singleton_nonempty id))
    rw [hmin]
    obtain ⟨hleaf, hcosted⟩ := h.costed_leaf hcosts id (env.groupedPartition id)
    rw [hleaf]
    obtain ⟨hlive, hkeeps⟩ := hcosted.add_leaf hcosts id (env.groupedPartition id)
    exact ⟨⟨hlive, hkeeps⟩, hmem hlive⟩

lemma partitioningOffers_live (h : Live leaves sides st) (op : MemoOp F) (keys : List Expr) :
    Considers leaves sides st (partitioningOffers env op keys st).2 ∧
      (∀ o ∈ (partitioningOffers env op keys st).1.1,
        Offered (partitioningOffers env op keys st).2 op.cover o.1) ∧
      ∀ o ∈ (partitioningOffers env op keys st).1.2,
        Offered (partitioningOffers env op keys st).2 op.cover o.1 := by
  obtain ⟨hst, hoffered⟩ := partitioningsOn_live hcosts h op.cover keys
  exact ⟨hst, fun o ho => hoffered _ (.inl (makeOffers_mem ho)),
    fun o ho => hoffered _ (.inr (makeOffers_mem ho))⟩

omit hcosts in
/-- A fold of steps that each consider a join. -/
lemma foldl_live {β : Type} {f : State F σ → β → State F σ} :
    ∀ {l : List β} {st₀ st : State F σ}, Considers leaves sides st₀ st →
      (∀ st, ∀ b ∈ l, Considers leaves sides st₀ st → Considers leaves sides st (f st b)) →
      Considers leaves sides st₀ (l.foldl f st)
  | [], _, _, hst, _ => hst
  | b :: l, _, _, hst, hf =>
    foldl_live (l := l) (hst.trans (hf _ b List.mem_cons_self hst))
      fun st c hc => hf st c (List.mem_cons_of_mem _ hc)

lemma addCoPartitionedCandidate_live (h : Live leaves sides st) {left right : MemoOp F}
    (hsides : Sides sides left.cover right.cover)
    (hshape : shape.combined = left.cover ∪ right.cover) (lk rk : List Expr)
    {leftOffers rightOffers : List (Offer F)}
    (hl : ∀ o ∈ leftOffers, Offered st left.cover o.1)
    (hr : ∀ o ∈ rightOffers, Offered st right.cover o.1) :
    Considers leaves sides st
      (addCoPartitionedCandidate env shape lk rk left right leftOffers rightOffers st) := by
  unfold addCoPartitionedCandidate
  refine foldl_live (foldl_live (foldl_live (h.considers rfl h.known) ?_) ?_) ?_
  · intro st₁ lo hlo h₁
    refine foldl_live (h₁.1.considers rfl h₁.1.known) fun st₂ ro hro h₂ => ?_
    split
    · exact addDistributedJoinCandidate_live hcosts h₂.1 hsides hshape lk rk
        ((h₁.trans h₂).offered hsides.left (hl lo hlo))
        ((h₁.trans h₂).offered hsides.right (hr ro hro))
    · exact h₂.1.considers rfl h₂.1.known
  · intro st₁ kept hkept h₁
    refine addIfBoth_live hcosts h₁.1 hsides hshape lk rk (fun op hop => ?_) fun op hop => ?_
    · exact Option.some.inj hop ▸ h₁.offered hsides.left (hl kept hkept)
    · exact aligned_offered h₁.1 hop
  · intro st₁ kept hkept h₁
    refine addIfBoth_live hcosts h₁.1 hsides hshape lk rk (fun op hop => ?_) fun op hop => ?_
    · exact aligned_offered h₁.1 hop
    · exact Option.some.inj hop ▸ h₁.offered hsides.right (hr kept hkept)

section considered

variable {left right : MemoOp F} (hsides : Sides sides left.cover right.cover)
  (hshape : shape.combined = left.cover ∪ right.cover)
include hsides hshape

lemma addGathered_live (h : Live leaves sides st) (hl : st.Owned left) (hr : st.Owned right)
    (lk rk : List Expr) :
    Considers leaves sides st (addGathered env shape lk rk left right st) := by
  unfold addGathered
  simp only
  split
  · refine addIfBoth_live hcosts h hsides hshape lk rk (fun op hop => ?_) fun op hop => ?_
    · split at hop
      · exact Option.some.inj hop ▸ ⟨rfl, hl⟩
      · exact gatheredSmall_offered h hop
    · split at hop
      · exact Option.some.inj hop ▸ ⟨rfl, hr⟩
      · exact gatheredSmall_offered h hop
  · exact h.considers rfl h.known

lemma addReplicated_live (h : Live leaves sides st) (hl : st.Owned left) (hr : st.Owned right)
    (lk rk : List Expr) :
    Considers leaves sides st (addReplicated env shape lk rk left right st) := by
  unfold addReplicated
  simp only
  split
  · have hboth : Considers leaves sides st (addIfBoth env shape lk rk
        (if left.outputPartitioning.kind = .broadcast then some left
          else replicatedChild env st left.cover .globalBroadcast)
        (if right.outputPartitioning.kind = .broadcast then some right
          else replicatedChild env st right.cover .globalBroadcast) st) := by
      refine addIfBoth_live hcosts h hsides hshape lk rk (fun op hop => ?_) fun op hop => ?_
      · split at hop
        · exact Option.some.inj hop ▸ ⟨rfl, hl⟩
        · exact replicatedChild_offered h hop
      · split at hop
        · exact Option.some.inj hop ▸ ⟨rfl, hr⟩
        · exact replicatedChild_offered h hop
    split
    · exact hboth.trans (addDistributedJoinCandidate_live hcosts hboth.1 hsides hshape lk rk
        (hboth.offered hsides.left ⟨rfl, hl⟩) (hboth.offered hsides.right ⟨rfl, hr⟩))
    · exact hboth
  · exact h.considers rfl h.known

lemma addPartitioned_live (h : Live leaves sides st) (edge : JoinEdge) (lk rk : List Expr) :
    Considers leaves sides st (addPartitioned env shape edge lk rk left right st) := by
  unfold addPartitioned
  simp only
  split
  · exact h.considers rfl h.known
  · split
    · exact addIfBoth_live hcosts h hsides hshape lk rk
        (fun op hop => bestOnPartitioning_offered h hop)
        fun op hop => bestOnPartitioning_offered h hop
    · obtain ⟨h₁, hlc, hlh⟩ := partitioningOffers_live hcosts h left lk
      obtain ⟨h₂, hrc, hrh⟩ := partitioningOffers_live hcosts h₁.1 right rk
      have h₃ := addCoPartitionedCandidate_live hcosts h₂.1 hsides hshape lk rk
        (fun o ho => h₂.offered hsides.left (hlh o ho)) hrh
      have h₄ := h₁.trans <| h₂.trans <| h₃.trans <|
        addCoPartitionedCandidate_live hcosts h₃.1 hsides hshape lk rk
          (fun o ho => (h₂.trans h₃).offered hsides.left (hlc o ho))
          fun o ho => h₃.offered hsides.right (hrc o ho)
      split
      · exact h₄.trans <| addIfBoth_live hcosts h₄.1 hsides hshape lk rk
          (fun op hop => bestOnPartitioning_offered h₄.1 hop)
          fun op hop => bestOnPartitioning_offered h₄.1 hop
      · exact h₄

lemma addBroadcastBuild_live (h : Live leaves sides st) (hl : st.Owned left) (lk rk : List Expr) :
    Considers leaves sides st (addBroadcastBuild env shape lk rk left right st) := by
  unfold addBroadcastBuild
  split
  · exact addIfBoth_live hcosts h hsides hshape lk rk
      (fun op hop => Option.some.inj hop ▸ ⟨rfl, hl⟩)
      fun op hop => replicatedChild_offered h hop
  · exact h.considers rfl h.known

/-- **Considering a join of two owned plans keeps the memo live.** -/
lemma considerCandidate_live (h : Live leaves sides st) {edge : JoinEdge}
    (hl : st.Owned left) (hr : st.Owned right) :
    Considers leaves sides st (considerCandidate env shape edge left right st) := by
  unfold considerCandidate
  simp only
  split
  · rw [hshape]
    refine addCandidate_live hcosts h hsides.union rfl fun child hchild => ?_
    rcases List.mem_cons.mp hchild with rfl | hchild
    · exact ⟨hsides.left, hl⟩
    · obtain rfl := List.mem_singleton.mp hchild
      exact ⟨hsides.right, hr⟩
  · set keys := orientedKeys left (edge :: shape.keyEdges.filterMap (env.graph.edges[·]?))
    have h₁ := addGathered_live hcosts hsides hshape h hl hr keys.1 keys.2
    have h₂ := h₁.trans (addReplicated_live hcosts hsides hshape h₁.1
      (h₁.2.owned hsides.left hl) (h₁.2.owned hsides.right hr) keys.1 keys.2)
    have h₃ := h₂.trans (addPartitioned_live hcosts hsides hshape h₂.1 edge keys.1 keys.2)
    exact h₃.trans (addBroadcastBuild_live hcosts hsides hshape h₃.1 (h₃.2.owned hsides.left hl)
      keys.1 keys.2)

end considered

/-! ### Emitting a pair -/

/-- A live memo that owns the two plans to be joined. -/
def Ready (leaves : LeafCosts F σ) (sides : RelationSet → Prop) (l r : MemoOp F)
    (st : State F σ) : Prop :=
  Live leaves sides st ∧ st.Owned l ∧ st.Owned r

/-- Considering a join, in either orientation, keeps the memo ready for the other. -/
lemma Ready.considerCandidate {l r : MemoOp F} (h : Ready leaves sides l r st)
    (hsides : Sides sides l.cover r.cover) (hshape : shape.combined = l.cover ∪ r.cover)
    (edge : JoinEdge) :
    Ready leaves sides l r (considerCandidate env shape edge l r st) ∧
      Ready leaves sides l r (Enumerator.considerCandidate env shape edge r l st) := by
  have hready : ∀ {st'}, Considers leaves sides st st' → Ready leaves sides l r st' :=
    fun h' => ⟨h'.1, h'.2.owned hsides.left h.2.1, h'.2.owned hsides.right h.2.2⟩
  exact ⟨hready (considerCandidate_live hcosts hsides hshape h.1 h.2.1 h.2.2),
    hready (considerCandidate_live hcosts hsides.symm (by rw [hshape, Finset.union_comm]) h.1
      h.2.2 h.2.1)⟩

lemma considerOrientations_live {l r : MemoOp F} (hsides : Sides sides l.cover r.cover)
    {combined : RelationSet} (hcombined : combined = l.cover ∪ r.cover) (edgeIndex : ℕ)
    (edge : JoinEdge) (leftType : JoinType) (keyEdges filterEdges : List ℕ) :
    Triple (Ready leaves sides l r)
      (considerOrientations env l r edgeIndex edge leftType combined keyEdges filterEdges)
      fun _ => Ready leaves sides l r := by
  have hswapped : ∀ shape : Shape, shape.combined = combined → Triple (Ready leaves sides l r)
      (modify (considerCandidate env shape edge r l) : EnumM F σ PUnit)
      fun _ => Ready leaves sides l r := fun shape hshape =>
    .update fun st h => (h.considerCandidate hcosts hsides (hshape.trans hcombined) edge).2
  unfold considerOrientations
  refine .ite (fun _ => ?_) fun _ => ?_
  · refine .bind (Q := fun _ => Ready leaves sides l r)
      (.update fun st h => (h.considerCandidate hcosts hsides hcombined edge).1) fun _ => ?_
    refine .ite (fun _ => ?_) fun _ => .pure fun _ h => h
    split
    · exact .throw _
    · exact hswapped _ rfl
  · refine .ite (fun _ => ?_) fun _ => .pure fun _ h => h
    split
    · exact .throw _
    · exact hswapped _ rfl

lemma emitSingleEdge_live {l r : MemoOp F} (hsides : Sides sides l.cover r.cover)
    {combined : RelationSet} (hcombined : combined = l.cover ∪ r.cover) (edgeIndex : ℕ)
    (edge : JoinEdge) (isForward : Bool) (keyEdges filterEdges : List ℕ) :
    Triple (Ready leaves sides l r)
      (emitSingleEdge env edgeIndex edge isForward l r combined keyEdges filterEdges)
      fun _ => Ready leaves sides l r := by
  have hprobe : ∀ shape : Shape, shape.combined = combined → ∀ st,
      Ready leaves sides l r st → Ready leaves sides l r (considerCandidate env shape edge
        (if isForward then l else r) (if isForward then r else l) st) ∧
      Ready leaves sides l r (considerCandidate env shape edge
        (if isForward then r else l) (if isForward then l else r) st) := by
    intro shape hshape st h
    have hboth := h.considerCandidate hcosts hsides (hshape.trans hcombined) edge
    cases isForward with
    | true => exact hboth
    | false => exact hboth.symm
  unfold emitSingleEdge
  refine .ite (fun _ => .throw _) fun _ => .ite (fun _ => .throw _) fun _ => ?_
  refine .ite (fun _ => ?_) fun _ => ?_
  · refine .bind (Q := fun _ => Ready leaves sides l r)
      (.update fun st h => (hprobe _ rfl st h).1) fun _ => ?_
    exact .ite (fun _ => .update fun st h => (hprobe _ rfl st h).2) fun _ => .pure fun _ h => h
  · split
    · exact .throw _
    · exact considerOrientations_live hcosts hsides hcombined edgeIndex edge _ _ _

lemma emitUnnest_live (h : Live leaves sides st) {S combined : RelationSet} {edge : JoinEdge}
    (hS : sides S) (hcombined : combined = S ∪ edge.rightEndpoints) (hU : Fresh sides combined)
    (edgeIndex : ℕ) (filterEdges : List ℕ) :
    Considers leaves sides st (emitUnnest env S edgeIndex edge combined filterEdges st) := by
  unfold emitUnnest
  split
  · exact h.considers rfl h.known
  · rename_i input hinput
    have hoffered := h.offered (PlanSet.cheapest_mem hinput)
    refine addCandidate_live hcosts h hU ?_ fun child hchild => ?_
    · rw [hcombined, ← hoffered.1]
      rfl
    · obtain rfl := List.mem_singleton.mp hchild
      exact ⟨hoffered.1 ▸ hS, hoffered.2⟩

omit hcosts in
/-- The cheapest plans of two sides are ready to be joined. -/
lemma Live.ready (h : Live leaves sides st) {A B : RelationSet} {l r : MemoOp F}
    (hl : st.cheapestPlan A = some l) (hr : st.cheapestPlan B = some r) :
    Ready leaves sides l r st ∧ l.cover = A ∧ r.cover = B := by
  have hleft := h.offered (PlanSet.cheapest_mem hl)
  have hright := h.offered (PlanSet.cheapest_mem hr)
  exact ⟨⟨h, hleft.2, hright.2⟩, hleft.1, hright.1⟩

lemma applyCrossingEdge_live (hsides : Sides sides A B) (edgeIndex : ℕ) (isForward : Bool)
    (filterEdges : List ℕ) :
    Triple (Live leaves sides)
      (applyCrossingEdge env edgeIndex isForward A B (A ∪ B) filterEdges)
      fun _ => Live leaves sides := by
  unfold applyCrossingEdge
  split
  · exact .pure fun _ h => h
  · rename_i edge _
    refine .ite (fun hunnest => .ite (fun _ => .pure fun _ h => h) fun hB => ?_) fun _ => ?_
    · refine .update fun st h => (emitUnnest_live hcosts h hsides.left ?_ hsides.union _ _).1
      rw [not_not.mp hB, (edge.unnest_shape hunnest).2.2.2]
    · refine .get_bind fun st h => ?_
      split
      · rename_i l r hl hr
        obtain ⟨hready, rfl, rfl⟩ := h.ready hl hr
        exact (emitSingleEdge_live hcosts hsides rfl edgeIndex edge isForward [] filterEdges).conseq
          (fun _ heq => heq ▸ hready) fun _ _ h => h.1
      · exact .pure fun _ heq => heq ▸ h

lemma applyInnerEdges_live (hsides : Sides sides A B) (joinEdges : List CrossingEdge)
    (filterEdges : List ℕ) :
    Triple (Live leaves sides) (applyInnerEdges env joinEdges A B (A ∪ B) filterEdges)
      fun _ => Live leaves sides := by
  unfold applyInnerEdges
  refine .get_bind fun st h => ?_
  split
  · rename_i l r hl hr
    obtain ⟨hready, rfl, rfl⟩ := h.ready hl hr
    split
    · exact .pure fun _ heq => heq ▸ h
    · split
      · exact .pure fun _ heq => heq ▸ h
      · exact (considerOrientations_live hcosts hsides rfl _ _ _ _ _).conseq
          (fun _ heq => heq ▸ hready) fun _ _ h => h.1
  · exact .pure fun _ heq => heq ▸ h

lemma applyCrossing_live (hsides : Sides sides A B) (crossing : CrossingEdges) :
    Triple (Live leaves sides) (applyCrossing env A B crossing) fun _ => Live leaves sides := by
  unfold applyCrossing
  simp only
  split
  · exact .pure fun _ h => h
  · exact .ite (fun _ => applyCrossingEdge_live hcosts hsides _ _ _) fun _ => .pure fun _ h => h
  · split
    · exact .ite (fun _ => applyCrossingEdge_live hcosts hsides _ _ _) fun _ => .pure fun _ h => h
    · exact applyInnerEdges_live hcosts hsides _ _
    · exact .throw _

/-- **Emitting a pair of sides keeps the memo live.** -/
lemma emitCsgCmp_live (hsides : Sides sides A B) :
    Triple (Live leaves sides) (emitCsgCmp env A B) fun _ => Live leaves sides := by
  unfold emitCsgCmp
  refine .read fun st => .bind (Q := fun _ => Live leaves sides)
    (.update fun _ h => h.of_memo rfl h.known) fun _ => ?_
  refine .ite (fun _ => .pure fun _ h => h) fun _ => ?_
  split
  · exact .pure fun _ h => h
  · exact applyCrossing_live hcosts hsides _

/-! ### Following the schedule -/

section follow

variable {W : RelationSet} {before : RelationSet → Prop}

/-- The sides before, and those of the pairs met. -/
def metSides (before : RelationSet → Prop) (met : List (RelationSet × RelationSet))
    (T : RelationSet) : Prop :=
  before T ∨ ∃ p ∈ met, T = p.1 ∨ T = p.2

omit hcosts in
lemma Live.later {met : List (RelationSet × RelationSet)}
    (h : Live leaves (metSides before met) st) (block : List (RelationSet × RelationSet)) :
    Live leaves (metSides before (met ++ block)) st :=
  h.mono fun _ hside => hside.imp id fun ⟨p, hp, heq⟩ => ⟨p, List.mem_append_left _ hp, heq⟩

variable (hW : W ⊆ RelationSet.allIds) (hbefore : ∀ T, before T → Disjoint T W)
include hW hbefore

omit hcosts in
/-- The union of the pair that the schedule meets next is no side of the pairs met. -/
lemma sides_of_schedule {met : List (RelationSet × RelationSet)} {A B : RelationSet}
    (hmet : met ++ [(A, B)] <+: (enumeration env.graph).schedule W) :
    Sides (metSides before (met ++ [(A, B)])) A B := by
  have hE := enumeration_lawful env.graph
  have hmem : (A, B) ∈ (enumeration env.graph).schedule W :=
    hmet.subset (List.mem_append_right _ List.mem_cons_self)
  have hlater := List.pairwise_append.mp ((schedule_pairwise hE hW).sublist hmet.sublist)
  obtain ⟨hdisj, ⟨w, hw⟩, s, hs, hleast, habove⟩ := mem_schedule_shape hE hW hmem
  have hsA : s ∈ A := hleast.1
  have hwB : w ∈ B := hw
  have hself : (A, B) ∈ met ++ [(A, B)] := List.mem_append_right _ List.mem_cons_self
  refine ⟨.inr ⟨_, hself, .inl rfl⟩, .inr ⟨_, hself, .inr rfl⟩, ?_, fun id hid => ?_⟩
  · rintro (h | ⟨p, hp, heq⟩)
    · exact Finset.disjoint_left.mp (hbefore _ h) (Finset.mem_union_left _ hsA) hs
    · rcases List.mem_append.mp hp with hp | hp
      · obtain ⟨-, -, hleft, hright⟩ := hlater.2.2 p hp (A, B) List.mem_cons_self
        exact heq.elim hleft hright
      · obtain rfl := List.mem_singleton.mp hp
        rcases heq with heq | heq
        · exact Finset.disjoint_left.mp hdisj (heq ▸ Finset.mem_union_right A hwB) hwB
        · exact Finset.disjoint_left.mp hdisj hsA (heq ▸ Finset.mem_union_left B hsA)
  · have hone : ∀ v ∈ A ∪ B, v = id := fun v hv => Finset.mem_singleton.mp (hid ▸ hv)
    have hsw : s = w := (hone s (Finset.mem_union_left _ hsA)).trans
      (hone w (Finset.mem_union_right _ hwB)).symm
    exact lt_irrefl s (hsw ▸ habove w hwB)

lemma emit_live {met : List (RelationSet × RelationSet)} {A B : RelationSet}
    (hmet : met ++ [(A, B)] <+: (enumeration env.graph).schedule W) :
    Triple (Live leaves (metSides before met)) (emitCsgCmp env A B)
      fun _ => Live leaves (metSides before (met ++ [(A, B)])) :=
  (emitCsgCmp_live hcosts (sides_of_schedule hW hbefore hmet)).conseq (fun _ h => h.later _)
    fun _ _ h => h

lemma enumerateCmpRec_live {A : RelationSet} :
    ∀ {depth : ℕ} {C X : RelationSet} {met : List (RelationSet × RelationSet)},
      met ++ (visits (neighborhood env.graph) RelationSet.subsetsBySize depth C X).map (A, ·) <+:
        (enumeration env.graph).schedule W →
      Triple (Live leaves (metSides before met)) (enumerateCmpRec env depth A C X)
        fun _ => Live leaves (metSides before (met ++
          (visits (neighborhood env.graph) RelationSet.subsetsBySize depth C X).map (A, ·)))
  | 0, C, X, met, _ => .pure fun _ h => h.later _
  | depth + 1, C, X, met, hmet => by
    rw [enumerateCmpRec]
    refine .read fun st => .ite (fun _ => .pure fun _ h => h.later _) fun _ =>
      .ite (fun _ => .pure fun _ h => h.later _) fun _ => ?_
    rw [visits] at hmet ⊢
    set N := neighborhood env.graph C X with hN
    rw [List.map_append, List.map_map, List.map_flatMap, ← List.append_assoc] at hmet ⊢
    -- First the sets at this level, then those below each of them.
    refine .bind (Q := fun _ => Live leaves (metSides before (met ++
      (RelationSet.subsetsBySize N).map ((A, ·) ∘ (C ∪ ·))))) ?_ fun _ => ?_
    · refine (Triple.forM_index (I := fun done => Live leaves (metSides before
        (met ++ done.map ((A, ·) ∘ (C ∪ ·))))) fun done s post hsplit => ?_).conseq
          (fun _ h => by simpa using h) fun _ _ h => h
      rw [List.map_append, ← List.append_assoc]
      refine .read fun st => .ite (fun _ => emit_live hcosts hW hbefore ?_)
        fun _ => .pure fun _ h => h.later _
      refine List.IsPrefix.trans ?_ hmet
      rw [hsplit]
      simp [List.prefix_append_right_inj]
    · refine (Triple.forM_index (I := fun done => Live leaves (metSides before
        (met ++ (RelationSet.subsetsBySize N).map ((A, ·) ∘ (C ∪ ·)) ++ done.flatMap fun s =>
          (visits (neighborhood env.graph) RelationSet.subsetsBySize depth (C ∪ s)
            (X ∪ N)).map (A, ·)))) fun done s post hsplit => ?_).conseq
          (fun _ h => by simpa using h) fun _ _ h => h
      rw [List.flatMap_append, ← List.append_assoc]
      simp only [List.flatMap_cons, List.flatMap_nil, List.append_nil]
      refine enumerateCmpRec_live (List.IsPrefix.trans ?_ hmet)
      rw [hsplit]
      simp [List.prefix_append_right_inj]

lemma emitCsg_live {A : RelationSet} {met : List (RelationSet × RelationSet)}
    (hmet : met ++ ((enumeration env.graph).complements A).map (A, ·) <+:
      (enumeration env.graph).schedule W) :
    Triple (Live leaves (metSides before met)) (emitCsg env A) fun _ => Live leaves
      (metSides before (met ++ ((enumeration env.graph).complements A).map (A, ·))) := by
  unfold emitCsg
  refine .read fun st => .ite (fun _ => .pure fun _ h => h.later _) fun _ => ?_
  rw [map_complements] at hmet ⊢
  refine (Triple.forM_index (I := fun done => Live leaves (metSides before
    (met ++ done.flatMap (neighborPairs env.graph A)))) fun done v post hsplit => ?_).conseq
      (fun _ h => by simpa using h) fun _ _ h => h
  rw [List.flatMap_append, ← List.append_assoc, List.flatMap_singleton]
  have hblock : met ++ done.flatMap (neighborPairs env.graph A) ++ neighborPairs env.graph A v <+:
      (enumeration env.graph).schedule W := by
    refine List.IsPrefix.trans ?_ hmet
    rw [hsplit]
    simp [List.prefix_append_right_inj]
  rw [neighborPairs, List.append_cons] at hblock ⊢
  exact .bind (emit_live hcosts hW hbefore (List.IsPrefix.trans (List.prefix_append _ _) hblock))
    fun _ => enumerateCmpRec_live hcosts hW hbefore hblock

lemma enumerateCsgRec_live :
    ∀ {depth : ℕ} {S X : RelationSet} {met : List (RelationSet × RelationSet)},
      met ++ blocks env.graph
        (visits (neighborhood env.graph) RelationSet.subsetsBySize depth S X) <+:
          (enumeration env.graph).schedule W →
      Triple (Live leaves (metSides before met)) (enumerateCsgRec env depth S X)
        fun _ => Live leaves (metSides before (met ++ blocks env.graph
          (visits (neighborhood env.graph) RelationSet.subsetsBySize depth S X)))
  | 0, S, X, met, _ => .pure fun _ h => h.later _
  | depth + 1, S, X, met, hmet => by
    rw [enumerateCsgRec]
    refine .read fun st => .ite (fun _ => .pure fun _ h => h.later _) fun _ =>
      .ite (fun _ => .pure fun _ h => h.later _) fun _ => ?_
    rw [visits] at hmet ⊢
    set N := neighborhood env.graph S X with hN
    have hsplit₀ : ∀ l : List RelationSet, blocks env.graph (l.map (S ∪ ·) ++
        l.flatMap fun s => visits (neighborhood env.graph) RelationSet.subsetsBySize depth (S ∪ s)
          (X ∪ N)) = blocks env.graph (l.map (S ∪ ·)) ++ l.flatMap fun s => blocks env.graph
            (visits (neighborhood env.graph) RelationSet.subsetsBySize depth (S ∪ s) (X ∪ N)) := by
      intro l
      simp [blocks, List.flatMap_append, List.flatMap_assoc]
    rw [hsplit₀, ← List.append_assoc] at hmet ⊢
    refine .bind (Q := fun _ => Live leaves (metSides before (met ++
      blocks env.graph ((RelationSet.subsetsBySize N).map (S ∪ ·))))) ?_ fun _ => ?_
    · refine (Triple.forM_index (I := fun done => Live leaves (metSides before
        (met ++ blocks env.graph (done.map (S ∪ ·))))) fun done s post hsplit => ?_).conseq
          (fun _ h => by simpa [blocks] using h) fun _ _ h => h
      have hone : blocks env.graph ((done ++ [s]).map (S ∪ ·)) =
          blocks env.graph (done.map (S ∪ ·)) ++
            ((enumeration env.graph).complements (S ∪ s)).map (S ∪ s, ·) := by
        simp [blocks]
      rw [hone, ← List.append_assoc]
      refine .read fun st => .ite (fun _ => emitCsg_live hcosts hW hbefore ?_)
        fun _ => .pure fun _ h => h.later _
      refine List.IsPrefix.trans ?_ hmet
      rw [hsplit]
      simp [blocks, List.prefix_append_right_inj]
    · refine (Triple.forM_index (I := fun done => Live leaves (metSides before
        (met ++ blocks env.graph ((RelationSet.subsetsBySize N).map (S ∪ ·)) ++
          done.flatMap fun s => blocks env.graph (visits (neighborhood env.graph)
            RelationSet.subsetsBySize depth (S ∪ s) (X ∪ N))))) fun done s post hsplit => ?_).conseq
          (fun _ h => by simpa using h) fun _ _ h => h
      rw [List.flatMap_append, ← List.append_assoc]
      simp only [List.flatMap_cons, List.flatMap_nil, List.append_nil]
      refine enumerateCsgRec_live (List.IsPrefix.trans ?_ hmet)
      rw [hsplit]
      simp [List.prefix_append_right_inj]

end follow

/-! ### A component -/

/-- The leaves of a component are added to a live memo. -/
lemma initLeaves_live (h : Live leaves sides st) (W : RelationSet) :
    Live leaves sides (initLeaves env W st) := by
  refine foldl_keeps (P := Live leaves sides) h fun st id _ h => ?_
  unfold initLeaf
  split
  · exact h
  · obtain ⟨hleaf, hcosted⟩ := h.costed_leaf hcosts id
      ((env.graph.relations[id]?.map (·.globalPartition)).getD .unspecified)
    simp only
    rw [hleaf]
    exact (hcosted.add_leaf hcosts id _).1

/-- **The dynamic program keeps the memo live**, whatever the budget. -/
theorem solveComponent_live {W : RelationSet} {before : RelationSet → Prop}
    (hW : W ⊆ RelationSet.allIds) (hbefore : ∀ T, before T → Disjoint T W) :
    Triple (Live leaves before) (solveComponent env W)
      fun _ => Live leaves (metSides before ((enumeration env.graph).schedule W)) := by
  unfold solveComponent
  refine .bind (Q := fun _ => Live leaves (metSides before [])) (.update fun st h => ?_)
    fun _ => .bind (Q := fun _ => Live leaves (metSides before
      ((enumeration env.graph).schedule W))) ?_ fun _ => .read fun _ => .pure fun _ h => h
  · have hreset : Live leaves before { st with budget := st.budget.reset } := h.of_memo rfl h.known
    exact (initLeaves_live hcosts hreset W).mono fun _ hside => Or.inl hside
  · refine (Triple.forM_index (I := fun done => Live leaves (metSides before
      (done.flatMap fun s => blocks env.graph ((enumeration env.graph).growths s))))
        fun done id post hsplit => ?_).conseq (fun _ h => h) fun _ _ h => h
    rw [List.flatMap_append, List.flatMap_singleton]
    refine .ite (fun _ => .pure fun _ h => h.later _) fun _ => ?_
    have hblock : done.flatMap (fun s => blocks env.graph ((enumeration env.graph).growths s)) ++
        blocks env.graph ((enumeration env.graph).growths id) <+:
          (enumeration env.graph).schedule W := by
      show _ <+: (RelationSet.toAscending W).reverse.flatMap fun s =>
        blocks env.graph ((enumeration env.graph).growths s)
      rw [hsplit]
      simp [List.prefix_append_right_inj]
    have hgrow : blocks env.graph ((enumeration env.graph).growths id) =
        ((enumeration env.graph).complements {id}).map ({id}, ·) ++ blocks env.graph
          (visits (neighborhood env.graph) RelationSet.subsetsBySize maxDepth {id}
            (RelationSet.prefixThrough id)) := by
      simp [blocks, Enumeration.growths]
      rfl
    rw [hgrow, ← List.append_assoc] at hblock ⊢
    exact .bind (emitCsg_live hcosts hW hbefore
      (List.IsPrefix.trans (List.prefix_append _ _) hblock))
      fun _ => enumerateCsgRec_live hcosts hW hbefore hblock

end leaves

/-! ### The default cost model -/

namespace DefaultCostModel

variable [Sub F] [Mul F] [Div F] [Max F] [Min F] [Zero F] [One F] [NatCast F]
  {g : JoinHypergraph} {stats : Statistics F}

variable (stats) in
/-- A leaf costs its rows, in a cache that has no other estimate for a single relation. -/
def leafCosts : LeafCosts F (BySetMap F) where
  cost id := ⟨(stats.leafEstimate id).cardinality, (stats.leafEstimate id).cardinality⟩
  known bySet := ∀ id estimate, bySet {id} = some estimate →
    estimate.cardinality = (stats.leafEstimate id).cardinality

/-- What the cache holds after an estimate is asked for. -/
lemma cached_snd {cover S : RelationSet} {estimate known : Estimate F} {bySet : BySetMap F}
    (h : (cached cover estimate bySet).2 S = some known) :
    bySet S = some known ∨ S = cover ∧ known = estimate := by
  unfold cached at h
  split at h
  · exact .inl h
  · simp only at h
    split at h
    · rename_i heq
      exact .inr ⟨heq, (Option.some.inj h).symm⟩
    · exact .inl h

/-- **The default cost model costs leaves alike**, as long as moving the rows of one never counts as
a saving. -/
lemma costsLeaves (limitBytes : F) (hirrefl : ∀ a : F, ¬ a < a)
    (hmoves : ∀ id a b, (stats.leafEstimate id).cardinality = some a →
      mul stats (some a) (some (stats.coveredRowBytes {id} * stats.kByteShuffleCost)) = some b →
        ¬ a + b < a) :
    CostsLeaves (default g stats limitBytes) (leafCosts stats) where
  leaf bySet id p hknown := by
    show (⟨_, _⟩ : Cost F) = ⟨_, _⟩
    unfold cached
    cases hcached : bySet {id} with
    | none => rfl
    | some estimate => rw [hknown id estimate hcached]
  keeps bySet op hknown hsingle := by
    -- An estimate cached for a single relation is that of its leaf.
    have hkeeps : ∀ {cover : RelationSet} {estimate : Estimate F},
        (∀ id, cover = {id} → estimate.cardinality = (stats.leafEstimate id).cardinality) →
          (leafCosts stats).known (cached cover estimate bySet).2 := by
      intro cover estimate hcover id known h
      rcases cached_snd h with h | ⟨heq, rfl⟩
      · exact hknown id known h
      · exact hcover id heq.symm
    show (leafCosts stats).known (cost g stats bySet op).2
    cases op with
    | leaf c id p =>
        refine hkeeps fun id' heq => ?_
        rw [Finset.singleton_inj.mp heq]
    | join c left right edgeIndex joinType reversed keyEdges filterEdges p =>
        rw [cost]
        split
        · exact hknown
        · refine hkeeps fun id heq => ?_
          obtain ⟨p', hleaf⟩ := hsingle id heq
          cases hleaf
    | unnest c input edgeIndex relation filterEdges =>
        refine hkeeps fun id heq => ?_
        obtain ⟨p', hleaf⟩ := hsingle id heq
        cases hleaf
    | exchange c input p => exact hknown
  shuffle id p a b ha hb := hmoves id a b ha (by rw [← ha]; exact hb)
  irrefl := hirrefl

end DefaultCostModel

end Verax.JoinOrder
