import Mathlib.Data.String.Basic
import Mathlib.Logic.Relation
import Verax.JoinOrder.JoinHypergraph
import Verax.Lib.ParentMap

/-!
# The columns of a cover

A subplan over a set of relations outputs one column of each group that the edges inside the set
make equal, and only columns that something above it reads.

* `coverColumnRepsByMap_eq`: the representatives looked up in the map of parents that the source
  keeps are those of the root function.
* `coverColumnReps_least`: the representative of a group is its best column, whatever the order of
  the edges.
* `coverColumnReps_of_subset`: a representative of a cover is one of each smaller cover it belongs to.
* `coverOutputColumns_supplied`: what a cover outputs is output by one of the two halves it is split
  into, or made of a column that one outputs.
-/

set_option linter.unusedSectionVars false

namespace Verax.JoinOrder

open Verax.Lib.ParentMap

/-! ### The best item of each class -/

namespace EquivalenceClosure

variable {α : Type*} [DecidableEq α]

/-- The closure of a list of pairs, in which preferred items become roots. -/
def bestOf (better : α → α → Bool) (pairs : List (α × α)) : EquivalenceClosure α :=
  pairs.foldl (fun c p => c.mergeBetter better p.1 p.2) empty

/-- A preference that orders the items of a set. -/
structure Orders (better : α → α → Bool) (s : α → Prop) : Prop where
  asymm : ∀ a b, better a b = true → better b a = false
  trans : ∀ a b c, better a b = true → better b c = true → better a c = true
  total : ∀ a b, s a → s b → a ≠ b → better a b = true ∨ better b a = true

/-- Roots are the best items of their classes, which lie within an equivalence. -/
structure Best (better : α → α → Bool) (s : α → Prop) (R : α → α → Prop)
    (c : EquivalenceClosure α) : Prop where
  root : ∀ x, c.find (c.find x) = c.find x
  within : ∀ x, s x → s (c.find x)
  related : ∀ x, R x (c.find x)
  least : ∀ x y, c.find x = c.find y → better y (c.find x) = false

variable {better : α → α → Bool} {s : α → Prop} {R : α → α → Prop} {c : EquivalenceClosure α}

lemma best_empty (horders : Orders better s) (hR : Equivalence R) :
    Best better s R (empty : EquivalenceClosure α) where
  root _ := rfl
  within _ h := h
  related x := hR.refl x
  least x y h := by
    obtain rfl : x = y := h
    by_contra hbetter
    have hself : better x x = true := by simpa [empty] using hbetter
    exact Bool.false_ne_true ((horders.asymm x x hself).symm.trans hself)

/-- Merging two classes hangs the worse root below the better one. -/
lemma find_mergeBetter (horders : Orders better s) {a b : α} (hne : c.find a ≠ c.find b)
    (ha : s (c.find a)) (hb : s (c.find b)) :
    ∃ winner loser, (winner = c.find a ∧ loser = c.find b ∨ winner = c.find b ∧ loser = c.find a) ∧
      better winner loser = true ∧
      ∀ x, (c.mergeBetter better a b).find x = if c.find x = loser then winner else c.find x := by
  by_cases hbetter : better (c.find b) (c.find a) = true
  · refine ⟨c.find b, c.find a, .inr ⟨rfl, rfl⟩, hbetter, fun x => ?_⟩
    simp [mergeBetter, hne, hbetter]
  · refine ⟨c.find a, c.find b, .inl ⟨rfl, rfl⟩, ?_, fun x => ?_⟩
    · exact (horders.total _ _ ha hb hne).resolve_right hbetter
    · simp [mergeBetter, hne, hbetter]

lemma mergeBetter_of_eq {a b : α} (h : c.find a = c.find b) : c.mergeBetter better a b = c := by
  simp [mergeBetter, h]

lemma Best.mergeBetter (h : Best better s R c) (horders : Orders better s) (hR : Equivalence R)
    {a b : α} (ha : s a) (hb : s b) (hab : R a b) : Best better s R (c.mergeBetter better a b) := by
  by_cases hne : c.find a = c.find b
  · rwa [mergeBetter_of_eq hne]
  obtain ⟨winner, loser, hends, hbetter, hfind⟩ :=
    find_mergeBetter horders hne (h.within a ha) (h.within b hb)
  have hroots : R (c.find a) (c.find b) :=
    hR.trans (hR.symm (h.related a)) (hR.trans hab (h.related b))
  have hwinner : c.find winner = winner ∧ s winner ∧ R loser winner ∧ winner ≠ loser := by
    rcases hends with ⟨rfl, rfl⟩ | ⟨rfl, rfl⟩
    · exact ⟨h.root a, h.within a ha, hR.symm hroots, hne⟩
    · exact ⟨h.root b, h.within b hb, hroots, Ne.symm hne⟩
  -- Nothing in either class is better than the winner.
  have hleast : ∀ y, c.find y = winner ∨ c.find y = loser → better y winner = false := by
    rintro y (hy | hy)
    · exact hy ▸ h.least y y rfl
    · cases hw : better y winner with
      | false => rfl
      | true => exact ((hy ▸ h.least y y rfl).symm.trans (horders.trans _ _ _ hw hbetter)).symm
  constructor
  · intro x
    rw [hfind x, hfind]
    split
    · rw [hwinner.1, if_neg hwinner.2.2.2]
    · rename_i hx
      rw [h.root, if_neg hx]
  · intro x hx
    rw [hfind]
    split
    · exact hwinner.2.1
    · exact h.within x hx
  · intro x
    rw [hfind]
    split
    · rename_i hx
      exact hR.trans (hx ▸ h.related x) hwinner.2.2.1
    · exact h.related x
  · intro x y hxy
    rw [hfind x, hfind y] at hxy
    rw [hfind x]
    split at hxy
    · rename_i hx
      rw [if_pos hx]
      split at hxy
      · rename_i hy
        exact hleast y (.inr hy)
      · exact hleast y (.inl hxy.symm)
    · rename_i hx
      rw [if_neg hx]
      split at hxy
      · rename_i hy
        exact hxy ▸ hleast y (.inr hy)
      · exact h.least x y hxy

/-- What has one root keeps one root. -/
lemma find_mergeBetter_congr {x y : α} (h : c.find x = c.find y) (a b : α) :
    (c.mergeBetter better a b).find x = (c.mergeBetter better a b).find y := by
  unfold EquivalenceClosure.mergeBetter
  simp only
  split
  · exact h
  · split <;> simp only [h]

/-- The two merged items have one root. -/
lemma find_mergeBetter_self (c : EquivalenceClosure α) (a b : α) :
    (c.mergeBetter better a b).find a = (c.mergeBetter better a b).find b := by
  unfold EquivalenceClosure.mergeBetter
  simp only
  split
  · assumption
  · rename_i hne
    split
    · simp [Ne.symm hne]
    · simp [hne]

/-- **Merging pairs one by one finds the best item of each class.** -/
lemma bestOf_spec {pairs : List (α × α)} (horders : Orders better s)
    (hpairs : ∀ p ∈ pairs, s p.1 ∧ s p.2) :
    Best better s (Relation.EqvGen fun x y => (x, y) ∈ pairs) (bestOf better pairs) ∧
      ∀ x y, Relation.EqvGen (fun x y => (x, y) ∈ pairs) x y →
        (bestOf better pairs).find x = (bestOf better pairs).find y := by
  have hR := Relation.EqvGen.is_equivalence fun x y => (x, y) ∈ pairs
  have hfold : ∀ (rest : List (α × α)) (c : EquivalenceClosure α), (∀ p ∈ rest, p ∈ pairs) →
      Best better s (Relation.EqvGen fun x y => (x, y) ∈ pairs) c →
      Best better s (Relation.EqvGen fun x y => (x, y) ∈ pairs)
          (rest.foldl (fun c p => c.mergeBetter better p.1 p.2) c) ∧
        (∀ x y, c.find x = c.find y →
          (rest.foldl (fun c p => c.mergeBetter better p.1 p.2) c).find x =
            (rest.foldl (fun c p => c.mergeBetter better p.1 p.2) c).find y) ∧
        ∀ p ∈ rest, (rest.foldl (fun c p => c.mergeBetter better p.1 p.2) c).find p.1 =
          (rest.foldl (fun c p => c.mergeBetter better p.1 p.2) c).find p.2 := by
    intro rest
    induction rest with
    | nil => exact fun c _ h => ⟨h, fun _ _ heq => heq, fun p hp => by cases hp⟩
    | cons p rest ih =>
      intro c hrest h
      have hp := hrest p List.mem_cons_self
      obtain ⟨hbest, hkeep, hmerged⟩ := ih (c.mergeBetter better p.1 p.2)
        (fun q hq => hrest q (List.mem_cons_of_mem _ hq))
        (h.mergeBetter horders hR (hpairs p hp).1 (hpairs p hp).2 (.rel _ _ hp))
      refine ⟨hbest, fun x y heq => hkeep x y (find_mergeBetter_congr heq _ _), fun q hq => ?_⟩
      rcases List.mem_cons.mp hq with rfl | hq
      · exact hkeep _ _ (find_mergeBetter_self c _ _)
      · exact hmerged q hq
  obtain ⟨hbest, -, hmerged⟩ := hfold pairs empty (fun _ hp => hp) (best_empty horders hR)
  refine ⟨hbest, fun x y hxy => ?_⟩
  induction hxy with
  | rel x y hxy => exact hmerged (x, y) hxy
  | refl x => rfl
  | symm x y _ ih => exact ih.symm
  | trans x y z _ _ ih ih' => exact ih.trans ih'

/-- The same closure by the map of parents. -/
lemma root_foldl_merge (better : α → α → Bool) (pairs : List (α × α)) :
    ∀ (F : Forest α) (c : EquivalenceClosure α), (∀ x, F.root x = c.find x) → ∀ x,
      (pairs.foldl (fun F p => F.merge better p.1 p.2) F).root x =
        (pairs.foldl (fun c p => c.mergeBetter better p.1 p.2) c).find x := by
  induction pairs with
  | nil => exact fun _ _ h => h
  | cons p pairs ih =>
    intro F c h
    refine ih _ _ fun x => ?_
    rw [Forest.root_merge, h, h, h]
    unfold EquivalenceClosure.mergeBetter
    simp only
    split
    · rfl
    · split <;> rfl

end EquivalenceClosure

namespace JoinHypergraph

variable (g : JoinHypergraph)

/-! ### Representatives -/

/-- The columns of the whole graph. -/
def columns : List Column := g.coverColumns g.relationIds

/-- Columns are told apart by their ids. Source: `QueryGraph.h` `PlanObject::id`. -/
def IdsDistinct : Prop := ∀ a ∈ g.columns, ∀ b ∈ g.columns, a.id = b.id → a = b

/-- The forest that `coverColumnReps` builds. Source: `JoinHypergraph.cpp` `coverColumnReps`. -/
def coverForest (cover : RelationSet) : Forest Column :=
  (g.coverKeyPairs cover).foldl (fun F p => F.merge g.betterRep p.1 p.2)
    ((g.coverColumns cover).foldl Forest.add Forest.empty)

/-- Looks up columns one after the other. -/
def lookUpAll : List Column → Forest Column → List (Column × Column)
  | [], _ => []
  | c :: rest, F => (c, (F.find c).1) :: lookUpAll rest (F.find c).2

/-- The representatives as the source computes them. Source: `JoinHypergraph.cpp`
`coverColumnReps`, `EquivalenceClosure`. -/
def coverColumnRepsByMap (cover : RelationSet) : List (Column × Column) :=
  lookUpAll (g.coverColumns cover) (g.coverForest cover)

lemma lookUpAll_eq (f : Column → Column) : ∀ (l : List Column) (F : Forest Column),
    (∀ x, F.root x = f x) → lookUpAll l F = l.map fun c => (c, f c)
  | [], _, _ => rfl
  | c :: l, F, h => by
    obtain ⟨hroot, hkeep⟩ := F.find_spec c
    rw [lookUpAll, hroot, h, lookUpAll_eq f l _ fun x => (hkeep x).trans (h x)]
    rfl

/-- **The map of parents with path compression gives the representatives.** -/
theorem coverColumnRepsByMap_eq (cover : RelationSet) :
    g.coverColumnRepsByMap cover =
      (g.coverColumns cover).map fun c => (c, g.coverColumnReps cover c) := by
  have hadd : ∀ (l : List Column) (F : Forest Column), (∀ x, F.root x = x) →
      ∀ x, (l.foldl Forest.add F).root x = x := by
    intro l
    induction l with
    | nil => exact fun _ h => h
    | cons c l ih => exact fun F h => ih _ fun x => (F.root_add c x).trans (h x)
  refine lookUpAll_eq _ _ _ (EquivalenceClosure.root_foldl_merge _ _ _ _ fun x => ?_)
  exact hadd _ _ (fun x => Forest.root_eq_self (.inl rfl)) x

variable {g}

lemma mem_coverColumns {cover : RelationSet} {c : Column} : c ∈ g.coverColumns cover ↔
    (∃ r i, g.relations[i]? = some r ∧ i ∈ cover ∧ c ∈ r.columns) ∨
      ∃ e ∈ g.edges, e.totalEligibility ⊆ cover ∧ ∃ source,
        (c, source) ∈ e.outputColumns.zip e.sourceColumns ∧ c ≠ source := by
  simp only [coverColumns, List.mem_append, List.mem_flatMap, List.mem_filter, List.mem_map,
    Prod.exists, List.mem_zipIdx_iff_getElem?, decide_eq_true_eq]
  constructor
  · rintro (⟨r, i, ⟨hr, hi⟩, hc⟩ | ⟨e, ⟨he, hsub⟩, x, y, ⟨hxy, hne⟩, rfl⟩)
    · exact .inl ⟨r, i, hr, hi, hc⟩
    · exact .inr ⟨e, he, hsub, y, hxy, hne⟩
  · rintro (⟨r, i, hr, hi, hc⟩ | ⟨e, he, hsub, y, hxy, hne⟩)
    · exact .inl ⟨r, i, ⟨hr, hi⟩, hc⟩
    · exact .inr ⟨e, ⟨he, hsub⟩, c, y, ⟨hxy, hne⟩, rfl⟩

lemma coverColumns_mono {A S : RelationSet} (h : A ⊆ S) {c : Column} (hc : c ∈ g.coverColumns A) :
    c ∈ g.coverColumns S := by
  rw [mem_coverColumns] at hc ⊢
  rcases hc with ⟨r, i, hr, hi, hc⟩ | ⟨e, he, hsub, hc⟩
  · exact .inl ⟨r, i, hr, h hi, hc⟩
  · exact .inr ⟨e, he, hsub.trans h, hc⟩

lemma coverColumns_subset {cover : RelationSet} {c : Column} (hc : c ∈ g.coverColumns cover) :
    c ∈ g.columns := by
  rw [columns]
  rw [mem_coverColumns] at hc ⊢
  rcases hc with ⟨r, i, hr, -, hc⟩ | ⟨e, he, -, hc⟩
  · obtain ⟨hi, -⟩ := List.getElem?_eq_some_iff.mp hr
    exact .inl ⟨r, i, hr, Finset.mem_range.mpr hi, hc⟩
  · exact .inr ⟨e, he, g.edges_known e he, hc⟩

lemma mem_coverKeyPairs {cover : RelationSet} {x y : Column} : (x, y) ∈ g.coverKeyPairs cover ↔
    ∃ e ∈ g.edges, e.joinType.provesKeyEquality = true ∧ e.totalEligibility ⊆ cover ∧
      (.column x, .column y) ∈ e.keyPairs ∧ x ∈ g.coverColumns cover ∧
        y ∈ g.coverColumns cover := by
  simp only [coverKeyPairs, List.mem_flatMap, List.mem_filter, List.mem_filterMap,
    Bool.and_eq_true, decide_eq_true_eq]
  constructor
  · rintro ⟨e, ⟨he, hproves, hsub⟩, ⟨k, k'⟩, hpair, hsome⟩
    rcases k with k | ⟨i, cs⟩
    · rcases k' with k' | ⟨i, cs⟩
      · simp only [Expr.asColumn] at hsome
        split at hsome
        · rename_i hmem
          obtain ⟨rfl, rfl⟩ := Prod.mk.inj (Option.some.inj hsome)
          exact ⟨e, he, hproves, hsub, hpair, hmem.1, hmem.2⟩
        · cases hsome
      · cases hsome
    · cases hsome
  · rintro ⟨e, he, hproves, hsub, hpair, hx, hy⟩
    exact ⟨e, ⟨he, hproves, hsub⟩, _, hpair, by simp [Expr.asColumn, hx, hy]⟩

lemma coverKeyPairs_mono {A S : RelationSet} (h : A ⊆ S) {p : Column × Column}
    (hp : p ∈ g.coverKeyPairs A) : p ∈ g.coverKeyPairs S := by
  obtain ⟨e, he, hproves, hsub, hpair, hx, hy⟩ := mem_coverKeyPairs.mp hp
  exact mem_coverKeyPairs.mpr ⟨e, he, hproves, hsub.trans h, hpair, coverColumns_mono h hx,
    coverColumns_mono h hy⟩

/-- Two columns that the edges within a cover make equal on every row. -/
abbrev Equated (g : JoinHypergraph) (cover : RelationSet) : Column → Column → Prop :=
  Relation.EqvGen fun x y => (x, y) ∈ g.coverKeyPairs cover

lemma Equated.mono {A S : RelationSet} (h : A ⊆ S) {x y : Column} (hxy : g.Equated A x y) :
    g.Equated S x y :=
  Relation.EqvGen.mono (fun _ _ hp => coverKeyPairs_mono h hp) x y hxy

/-- What is equated to a column of the cover is one. -/
lemma Equated.mem {cover : RelationSet} {x y : Column} (hxy : g.Equated cover x y) :
    x ∈ g.coverColumns cover ↔ y ∈ g.coverColumns cover := by
  induction hxy with
  | rel x y hp =>
      obtain ⟨-, -, -, -, -, hx, hy⟩ := mem_coverKeyPairs.mp hp
      exact ⟨fun _ => hy, fun _ => hx⟩
  | refl x => exact Iff.rfl
  | symm x y _ ih => exact ih.symm
  | trans x y z _ _ ih ih' => exact ih.trans ih'

variable (g) in
/-- What `betterRep` compares: a target first, then the smaller name, then the smaller id. -/
def repKey (c : Column) : ℕ ×ₗ String ×ₗ ℕ :=
  toLex (if c ∈ g.targetColumns then 0 else 1, toLex (c.name, c.id))

lemma betterRep_iff {a b : Column} : g.betterRep a b = true ↔ g.repKey a < g.repKey b := by
  unfold betterRep repKey
  simp only [Prod.Lex.toLex_lt_toLex]
  by_cases ha : a ∈ g.targetColumns <;> by_cases hb : b ∈ g.targetColumns <;>
    by_cases hname : a.name = b.name <;> simp [ha, hb, hname]

lemma orders_betterRep (hids : g.IdsDistinct) :
    EquivalenceClosure.Orders g.betterRep (· ∈ g.columns) where
  asymm a b h := by
    rw [betterRep_iff] at h
    rw [Bool.eq_false_iff, ne_eq, betterRep_iff]
    exact lt_asymm h
  trans a b c hab hbc := by
    rw [betterRep_iff] at hab hbc ⊢
    exact hab.trans hbc
  total a b ha hb hne := by
    rw [betterRep_iff, betterRep_iff]
    refine lt_or_gt_of_ne fun heq => hne (hids a ha b hb ?_)
    exact (Prod.ext_iff.mp (congrArg (fun k => ofLex (ofLex k).2) heq)).2

/-- **The representative of a group is its best column**, whatever the order of the edges. -/
lemma coverColumnReps_least (hids : g.IdsDistinct) (cover : RelationSet) (c : Column) :
    g.Equated cover c (g.coverColumnReps cover c) ∧ ∀ d, g.Equated cover c d →
      g.coverColumnReps cover d = g.coverColumnReps cover c ∧
        g.betterRep d (g.coverColumnReps cover c) = false := by
  have hpairs : ∀ p ∈ g.coverKeyPairs cover, p.1 ∈ g.columns ∧ p.2 ∈ g.columns := fun p hp => by
    obtain ⟨-, -, -, -, -, hx, hy⟩ := mem_coverKeyPairs.mp hp
    exact ⟨coverColumns_subset hx, coverColumns_subset hy⟩
  obtain ⟨hbest, hsame⟩ := EquivalenceClosure.bestOf_spec (orders_betterRep hids) hpairs
  exact ⟨hbest.related c, fun d hd => ⟨(hsame c d hd).symm, hbest.least c d (hsame c d hd)⟩⟩

/-- A representative of a cover represents itself in each smaller cover. -/
lemma coverColumnReps_of_subset (hids : g.IdsDistinct) {A S : RelationSet} (hsub : A ⊆ S)
    {c : Column} (hc : c ∈ g.coverColumns A) (hrep : g.coverColumnReps S c = c) :
    g.coverColumnReps A c = c := by
  obtain ⟨hequated, hleast⟩ := coverColumnReps_least hids A c
  by_contra hne
  have hmem := coverColumns_subset (hequated.mem.mp hc)
  rcases (orders_betterRep hids).total _ _ hmem (coverColumns_subset hc) hne with h | h
  · have hworse := ((coverColumnReps_least hids S c).2 _ (hequated.mono hsub)).2
    rw [hrep, h] at hworse
    cases hworse
  · have hworse := (hleast c (.refl c)).2
    rw [h] at hworse
    cases hworse

/-! ### What is needed above a cover -/

/-- What an edge reads of its inputs: keys, filter and the sources of its outputs, and for an Unnest
the expressions it expands, which its relation's node holds.
Source: `JoinHypergraph.cpp` `coverOutputColumns`, first loop. -/
def readColumns (unnestExpressions : ℕ → List Expr) (e : JoinEdge) : List Column :=
  (e.leftKeys ++ e.rightKeys ++ e.filter).flatMap Expr.columns ++ e.sourceColumns ++
    if e.isUnnest then (unnestExpressions (RelationSet.min e.rightEndpoints)).flatMap Expr.columns
    else []

variable (g)

/-- The outputs of the edges, each with its source. -/
def outputSources : List (Column × Column) :=
  g.edges.flatMap fun e => e.outputColumns.zip e.sourceColumns

/-- Adds the source of an output that is needed. -/
def addSource (needed : Finset Column) (p : Column × Column) : Finset Column :=
  if p.1 ∈ needed then insert p.2 needed else needed

/-- One pass over the edges. -/
def addSources (needed : Finset Column) : Finset Column := g.outputSources.foldl addSource needed

/-- Passes until one adds nothing. -/
def closeSources : ℕ → Finset Column → Finset Column
  | 0, needed => needed
  | passes + 1, needed =>
    let next := g.addSources needed
    if next.card = needed.card then next else closeSources passes next

variable (unnestExpressions : ℕ → List Expr)

/-- What the targets and the edges not yet applied read. -/
def readAbove (cover : RelationSet) : Finset Column :=
  (g.targetColumns ++ (g.edges.filter fun e => ¬ e.totalEligibility ⊆ cover).flatMap
    (readColumns unnestExpressions)).toFinset

/-- What is read above a subplan over `cover`. Every pass but the last adds a source, so there are
no more passes than outputs. Source: `JoinHypergraph.cpp` `coverOutputColumns`, `neededAbove`. -/
def neededAbove (cover : RelationSet) : Finset Column :=
  g.closeSources (g.outputSources.length + 1) (g.readAbove unnestExpressions cover) ∪
    ((g.filterConjuncts.filter fun c => ¬ c.relations ⊆ cover).flatMap (·.expr.columns)).toFinset

/-- The columns a subplan over `cover` must output. Source: `JoinHypergraph.cpp`
`coverOutputColumns`. -/
def coverOutputColumns (cover : RelationSet) : Finset Column :=
  ((g.coverColumns cover).toFinset ∩ g.neededAbove unnestExpressions cover).image
    (g.coverColumnReps cover)

variable {g unnestExpressions}

/-- A set that holds the source of each output it holds. -/
def SourceClosed (g : JoinHypergraph) (T : Finset Column) : Prop :=
  ∀ p ∈ g.outputSources, p.1 ∈ T → p.2 ∈ T

lemma subset_addSource (needed : Finset Column) (p : Column × Column) :
    needed ⊆ addSource needed p := by
  unfold addSource
  split
  · exact Finset.subset_insert _ _
  · exact subset_rfl

lemma subset_foldl_addSource : ∀ (l : List (Column × Column)) (needed : Finset Column),
    needed ⊆ l.foldl addSource needed
  | [], _ => subset_rfl
  | p :: l, needed => (subset_addSource needed p).trans (subset_foldl_addSource l _)

lemma subset_addSources (needed : Finset Column) : needed ⊆ g.addSources needed :=
  subset_foldl_addSource _ _

lemma addSources_subset {needed T : Finset Column} (hT : g.SourceClosed T) (h : needed ⊆ T) :
    g.addSources needed ⊆ T := by
  have hfold : ∀ (l : List (Column × Column)) (n : Finset Column),
      (∀ p ∈ l, p ∈ g.outputSources) → n ⊆ T → l.foldl addSource n ⊆ T := by
    intro l
    induction l with
    | nil => exact fun n _ h => h
    | cons p l ih =>
      intro n hl hn
      refine ih _ (fun q hq => hl q (List.mem_cons_of_mem _ hq)) ?_
      unfold addSource
      split
      · rename_i hp
        exact Finset.insert_subset (hT p (hl p List.mem_cons_self) (hn hp)) hn
      · exact hn
  exact hfold _ _ (fun _ hp => hp) h

/-- A pass adds the source of what was needed before it. -/
lemma mem_addSources {needed : Finset Column} {p : Column × Column} (hp : p ∈ g.outputSources)
    (h : p.1 ∈ needed) : p.2 ∈ g.addSources needed := by
  have hfold : ∀ (l : List (Column × Column)) (n : Finset Column), p.1 ∈ n → p ∈ l →
      p.2 ∈ l.foldl addSource n := by
    intro l
    induction l with
    | nil => exact fun n _ h => absurd h List.not_mem_nil
    | cons q l ih =>
      intro n hn h
      rcases List.mem_cons.mp h with rfl | h
      · refine subset_foldl_addSource l _ ?_
        rw [addSource, if_pos hn]
        exact Finset.mem_insert_self _ _
      · exact ih _ (subset_addSource n q hn) h
  exact hfold _ _ h hp

lemma subset_closeSources : ∀ (passes : ℕ) (needed : Finset Column),
    needed ⊆ g.closeSources passes needed
  | 0, _ => subset_rfl
  | passes + 1, needed => by
    rw [closeSources]
    split
    · exact subset_addSources needed
    · exact (subset_addSources needed).trans (subset_closeSources passes _)

lemma closeSources_subset {T : Finset Column} (hT : g.SourceClosed T) :
    ∀ (passes : ℕ) {needed : Finset Column}, needed ⊆ T → g.closeSources passes needed ⊆ T
  | 0, _, h => h
  | passes + 1, needed, h => by
    have hnext := addSources_subset hT h
    rw [closeSources]
    split
    · exact hnext
    · exact closeSources_subset hT passes hnext

/-- The passes end closed, as each but the last adds one of the sources still missing. -/
lemma sourceClosed_closeSources : ∀ (passes : ℕ) (needed : Finset Column),
    ((g.outputSources.map Prod.snd).toFinset \ needed).card < passes →
      g.SourceClosed (g.closeSources passes needed)
  | 0, _, h => absurd h (Nat.not_lt_zero _)
  | passes + 1, needed, h => by
    have hsub := subset_addSources (g := g) needed
    rw [closeSources]
    split
    · rename_i hcard
      have heq : needed = g.addSources needed := Finset.eq_of_subset_of_card_le hsub hcard.le
      intro p hp hmem
      exact mem_addSources hp (heq ▸ hmem)
    · rename_i hcard
      refine sourceClosed_closeSources passes _ ?_
      have hnew : ∃ c ∈ g.addSources needed, c ∉ needed := by
        by_contra hnone
        push Not at hnone
        exact hcard (congrArg Finset.card (hsub.antisymm' hnone))
      obtain ⟨c, hc, hold⟩ := hnew
      -- What a pass adds is a source.
      have hsource : c ∈ (g.outputSources.map Prod.snd).toFinset := by
        have hclosed : g.SourceClosed (needed ∪ (g.outputSources.map Prod.snd).toFinset) :=
          fun p hp _ => Finset.mem_union_right _
            (List.mem_toFinset.mpr (List.mem_map_of_mem hp))
        have hmem := addSources_subset hclosed Finset.subset_union_left hc
        exact (Finset.mem_union.mp hmem).resolve_left hold
      have hlt : ((g.outputSources.map Prod.snd).toFinset \ g.addSources needed).card <
          ((g.outputSources.map Prod.snd).toFinset \ needed).card := by
        refine Finset.card_lt_card (Finset.ssubset_iff_subset_ne.mpr
          ⟨Finset.sdiff_subset_sdiff subset_rfl hsub, fun heq => ?_⟩)
        have hmem : c ∈ (g.outputSources.map Prod.snd).toFinset \ needed :=
          Finset.mem_sdiff.mpr ⟨hsource, hold⟩
        rw [← heq] at hmem
        exact (Finset.mem_sdiff.mp hmem).2 hc
      omega

lemma sourceClosed_neededAbove (needed : Finset Column) :
    g.SourceClosed (g.closeSources (g.outputSources.length + 1) needed) := by
  refine sourceClosed_closeSources _ _ (Nat.lt_succ_of_le ?_)
  calc ((g.outputSources.map Prod.snd).toFinset \ needed).card
      ≤ (g.outputSources.map Prod.snd).toFinset.card := Finset.card_le_card Finset.sdiff_subset
    _ ≤ (g.outputSources.map Prod.snd).length := List.toFinset_card_le _
    _ = g.outputSources.length := List.length_map _

lemma mem_readAbove {cover : RelationSet} {c : Column} : c ∈ g.readAbove unnestExpressions cover ↔
    c ∈ g.targetColumns ∨ ∃ e ∈ g.edges, ¬ e.totalEligibility ⊆ cover ∧
      c ∈ readColumns unnestExpressions e := by
  simp [readAbove, and_assoc]

lemma mem_neededAbove_of_read {cover : RelationSet} {e : JoinEdge} {c : Column} (he : e ∈ g.edges)
    (hcover : ¬ e.totalEligibility ⊆ cover) (hc : c ∈ readColumns unnestExpressions e) :
    c ∈ g.neededAbove unnestExpressions cover :=
  Finset.mem_union_left _ (subset_closeSources _ _ (mem_readAbove.mpr (.inr ⟨e, he, hcover, hc⟩)))

/-- **A larger cover has less above it.** -/
lemma neededAbove_anti {A S : RelationSet} (h : A ⊆ S) :
    g.neededAbove unnestExpressions S ⊆ g.neededAbove unnestExpressions A := by
  refine Finset.union_subset_union ?_ fun c hc => ?_
  · refine closeSources_subset (sourceClosed_neededAbove _) _ (subset_trans (fun c hc => ?_)
      (subset_closeSources _ _))
    rw [mem_readAbove] at hc ⊢
    exact hc.imp id fun ⟨e, he, hcover, hc⟩ => ⟨e, he, fun hsub => hcover (hsub.trans h), hc⟩
  · simp only [List.mem_toFinset, List.mem_flatMap, List.mem_filter, decide_eq_true_eq] at hc ⊢
    obtain ⟨f, ⟨hf, hcover⟩, hc⟩ := hc
    exact ⟨f, ⟨hf, fun hsub => hcover (hsub.trans h)⟩, hc⟩

lemma mem_coverOutputColumns {cover : RelationSet} {c : Column} :
    c ∈ g.coverOutputColumns unnestExpressions cover ↔ ∃ d ∈ g.coverColumns cover,
      d ∈ g.neededAbove unnestExpressions cover ∧ g.coverColumnReps cover d = c := by
  simp [coverOutputColumns, and_assoc]

/-- A column that is needed above is output by its representative. -/
lemma rep_mem_coverOutputColumns {cover : RelationSet} {c : Column}
    (hc : c ∈ g.coverColumns cover) (hneeded : c ∈ g.neededAbove unnestExpressions cover) :
    g.coverColumnReps cover c ∈ g.coverOutputColumns unnestExpressions cover :=
  mem_coverOutputColumns.mpr ⟨c, hc, hneeded, rfl⟩

/-! ### What two halves supply -/

/-- What edges read is supplied below them: keys by the relations of their eligibility sets, the
source of a fresh output by one of the two. Source: `HypergraphBuilder.cpp` `addInner`, `addOuter`. -/
structure Supplied (g : JoinHypergraph) : Prop where
  keys : ∀ e ∈ g.edges, ∀ x y, (Expr.column x, Expr.column y) ∈ e.keyPairs →
    x ∈ g.coverColumns e.totalEligibility ∧ y ∈ g.coverColumns e.totalEligibility
  sources : ∀ e ∈ g.edges, ∀ p ∈ e.outputColumns.zip e.sourceColumns, p.1 ≠ p.2 →
    p.2 ∈ g.coverColumns e.leftEligibility ∨ p.2 ∈ g.coverColumns e.rightEligibility
  inner : ∀ e ∈ g.edges, e.joinType = .inner → e.outputColumns = []

/-- A group of a cover that reaches beyond a smaller one has a column there that is needed above. -/
lemma exists_needed_of_equated (hsupplied : g.Supplied) {A S : RelationSet} {c d : Column}
    (hequated : g.Equated S c d) : g.Equated A c d ∨
      ∃ x, g.Equated A c x ∧ x ∈ g.neededAbove unnestExpressions A := by
  -- An edge on the way that is not inside the smaller cover reads a column on each side of it.
  have hstep : ∀ x y, (x, y) ∈ g.coverKeyPairs S → (x, y) ∈ g.coverKeyPairs A ∨
      x ∈ g.neededAbove unnestExpressions A ∧ y ∈ g.neededAbove unnestExpressions A := by
    intro x y hp
    obtain ⟨e, he, hproves, -, hpair, -, -⟩ := mem_coverKeyPairs.mp hp
    obtain ⟨hx, hy⟩ := hsupplied.keys e he x y hpair
    by_cases hsub : e.totalEligibility ⊆ A
    · exact .inl (mem_coverKeyPairs.mpr ⟨e, he, hproves, hsub, hpair, coverColumns_mono hsub hx,
        coverColumns_mono hsub hy⟩)
    · have hleft : Expr.column x ∈ e.leftKeys := (List.of_mem_zip hpair).1
      have hright : Expr.column y ∈ e.rightKeys := (List.of_mem_zip hpair).2
      refine .inr ⟨mem_neededAbove_of_read he hsub ?_, mem_neededAbove_of_read he hsub ?_⟩
      · simp only [readColumns, List.mem_append, List.mem_flatMap]
        exact .inl (.inl ⟨_, .inl (.inl hleft), List.mem_singleton_self x⟩)
      · simp only [readColumns, List.mem_append, List.mem_flatMap]
        exact .inl (.inl ⟨_, .inl (.inr hright), List.mem_singleton_self y⟩)
  -- Along the way the group of `c` is left at such an edge, or not at all.
  have hway : ∀ x y, g.Equated S x y →
      g.Equated A x y ∨ ((∃ z, g.Equated A x z ∧ z ∈ g.neededAbove unnestExpressions A) ∧
        ∃ z, g.Equated A y z ∧ z ∈ g.neededAbove unnestExpressions A) := by
    intro x y hxy
    induction hxy with
    | rel x y hp =>
        rcases hstep x y hp with hp | ⟨hx, hy⟩
        · exact .inl (.rel _ _ hp)
        · exact .inr ⟨⟨x, .refl x, hx⟩, ⟨y, .refl y, hy⟩⟩
    | refl x => exact .inl (.refl x)
    | symm x y _ ih => exact ih.imp (.symm _ _) And.symm
    | trans x y z _ _ ih ih' =>
        rcases ih with ih | ih
        · rcases ih' with ih' | ⟨⟨w, hyw, hw⟩, hz⟩
          · exact .inl (.trans _ _ _ ih ih')
          · exact .inr ⟨⟨w, .trans _ _ _ ih hyw, hw⟩, hz⟩
        · rcases ih' with ih' | ih'
          · obtain ⟨w, hyw, hw⟩ := ih.2
            exact .inr ⟨ih.1, ⟨w, .trans _ _ _ (.symm _ _ ih') hyw, hw⟩⟩
          · exact .inr ⟨ih.1, ih'.2⟩
  exact (hway c d hequated).imp id And.left

/-- What a cover outputs and a smaller one can supply, the smaller one outputs. -/
lemma mem_coverOutputColumns_of_subset (hids : g.IdsDistinct) (hsupplied : g.Supplied)
    {A S : RelationSet} (hsub : A ⊆ S) {c : Column}
    (hc : c ∈ g.coverOutputColumns unnestExpressions S) (hA : c ∈ g.coverColumns A) :
    c ∈ g.coverOutputColumns unnestExpressions A := by
  obtain ⟨d, -, hneeded, hrep⟩ := mem_coverOutputColumns.mp hc
  obtain ⟨hequated, hleast⟩ := coverColumnReps_least hids S d
  rw [hrep] at hequated hleast
  have hself : g.coverColumnReps A c = c :=
    coverColumnReps_of_subset hids hsub hA ((hleast c hequated).1.trans rfl)
  obtain ⟨x, hx, hxneeded⟩ : ∃ x, g.Equated A c x ∧ x ∈ g.neededAbove unnestExpressions A := by
    rcases exists_needed_of_equated hsupplied (A := A) (.symm _ _ hequated) with h | h
    · exact ⟨d, h, neededAbove_anti hsub hneeded⟩
    · exact h
  refine mem_coverOutputColumns.mpr ⟨x, hx.mem.mp hA, hxneeded, ?_⟩
  rw [((coverColumnReps_least hids A c).2 x hx).1, hself]

end JoinHypergraph

namespace PaddedColumn

/-- `t.x`, `s.y`, and the copy of `s.y` that an outer join makes. -/
def x : Column := ⟨0, "x", none⟩

def y : Column := ⟨1, "y", none⟩

def z : Column := ⟨2, "z", none⟩

lemma t_nonempty : ({0} : RelationSet).Nonempty := ⟨0, Finset.mem_singleton_self 0⟩

lemma s_nonempty : ({1} : RelationSet).Nonempty := ⟨1, Finset.mem_singleton_self 1⟩

lemma t_s_disjoint : Disjoint ({0} : RelationSet) {1} := by decide

lemma outer_filter : JoinType.left = .inner → ([] : List Expr) = [] := fun _ => rfl

lemma outer_plain : JoinType.left = .inner → false = false ∧ false = false := fun _ => ⟨rfl, rfl⟩

/-- `t left join s on t.x = s.y`, of which `t.x` and the padded `s.y` are wanted. -/
def outer : JoinEdge where
  leftEndpoints := {0}
  rightEndpoints := {1}
  leftEligibility := {0}
  rightEligibility := {1}
  leftKeys := [.column x]
  rightKeys := [.column y]
  joinType := .left
  outputColumns := [x, z]
  sourceColumns := [x, y]
  leftEndpoints_nonempty := t_nonempty
  rightEndpoints_nonempty := s_nonempty
  endpoints_disjoint := t_s_disjoint
  eligibility_disjoint := t_s_disjoint
  leftEndpoints_subset := subset_rfl
  rightEndpoints_subset := subset_rfl
  inner_filter := outer_filter
  inner_plain := outer_plain

def graph : JoinHypergraph where
  relations := [⟨[x], .unspecified, false⟩, ⟨[y], .unspecified, false⟩]
  edges := [outer]
  targetColumns := [x, z]

lemma ids_distinct : graph.IdsDistinct := by
  unfold JoinHypergraph.IdsDistinct
  decide

lemma supplied : graph.Supplied where
  keys e he a b hp := by
    obtain rfl := List.mem_singleton.mp he
    obtain ⟨rfl, rfl⟩ : a = x ∧ b = y := by simpa [JoinEdge.keyPairs, outer] using hp
    decide
  sources e he p hp hne := by
    obtain rfl := List.mem_singleton.mp he
    have hp : p = (x, x) ∨ p = (z, y) := by simpa [outer] using hp
    rcases hp with rfl | rfl
    · exact absurd rfl hne
    · exact .inr (by decide)
  inner e he hinner := by
    obtain rfl := List.mem_singleton.mp he
    cases hinner

end PaddedColumn

end Verax.JoinOrder
