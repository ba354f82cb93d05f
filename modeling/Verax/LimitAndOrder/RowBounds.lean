import Verax.LimitAndOrder.Refinement

/-!
# Row bounds in machine integers

Offsets and counts are 64-bit integers, and the sums the pass takes of them wrap around. This module
has the pass over chains of Limit, TopN, Sort and UnionAll in those integers, with the checks the
constructors make, next to the pass in natural numbers of `Pass.lean`.

* `RowBound.toLimitBound_collapse`, `RowBound.toLimitBound_leg`: where a sum fits, both passes
  compute the same bound.
* `Chain.computations_exact_iff`: every bound the walk computes is the exact one iff the sums fit.
* `Chain.rewrite_agrees`: where the sums fit, no constructor rejects its bound and both passes return
  the same plan.
* `Chain.rowBoundsHold_iff`: the three together, over a whole plan.
-/

namespace Verax.LimitAndOrder

open Verax.Lib Verax.Lib.Deliveries

/-! ### Sums of machine integers -/

/-- No bound. Source: `LimitAndOrderPass.cpp` `kNoCount`. -/
def noCount : Int64 := Int64.maxValue

lemma toInt_noCount : noCount.toInt = 2 ^ 63 - 1 := rfl

/-- A sum of two numbers that are not negative is exact unless it is negative. -/
lemma add_nonneg_iff {a b : Int64} (ha : 0 ≤ a) (hb : 0 ≤ b) :
    0 ≤ a + b ↔ a.toInt + b.toInt ≤ 2 ^ 63 - 1 := by
  rw [Int64.le_iff_toInt_le, Int64.toInt_zero] at ha hb ⊢
  have halt := a.toInt_lt
  have hblt := b.toInt_lt
  rw [Int64.toInt_add, Int.bmod]
  split <;> omega

lemma toInt_add_of_le {a b : Int64} (ha : 0 ≤ a) (hb : 0 ≤ b)
    (h : a.toInt + b.toInt ≤ 2 ^ 63 - 1) : (a + b).toInt = a.toInt + b.toInt := by
  rw [Int64.le_iff_toInt_le, Int64.toInt_zero] at ha hb
  rw [Int64.toInt_add, Int.bmod]
  split <;> omega

/-- A difference of two numbers that are not negative is exact. -/
lemma toInt_sub_of_nonneg {a b : Int64} (ha : 0 ≤ a) (hb : 0 ≤ b) :
    (a - b).toInt = a.toInt - b.toInt := by
  rw [Int64.le_iff_toInt_le, Int64.toInt_zero] at ha hb
  have halt := a.toInt_lt
  have hblt := b.toInt_lt
  rw [Int64.toInt_sub, Int.bmod]
  split <;> omega

/-- `offset + count`, or the largest number if it does not fit. Source: `Node.h`
`Limit::offsetPlusCount`, `TopN::offsetPlusCount`. -/
def offsetPlusCount (offset count : Int64) : Int64 :=
  if Int64.maxValue - offset ≤ count then Int64.maxValue else offset + count

/-- The saturating sum never wraps. -/
theorem toInt_offsetPlusCount {offset count : Int64} (hoffset : 0 ≤ offset) (hcount : 0 ≤ count) :
    (offsetPlusCount offset count).toInt = min (2 ^ 63 - 1) (offset.toInt + count.toInt) := by
  have hsub := toInt_sub_of_nonneg (a := Int64.maxValue) (by decide) hoffset
  have hmax := Int64.toInt_maxValue
  unfold offsetPlusCount
  split
  · rename_i h
    rw [Int64.le_iff_toInt_le] at h
    omega
  · rename_i h
    rw [Int64.le_iff_toInt_le] at h
    rw [toInt_add_of_le hoffset hcount (by omega)]
    omega

/-! ### Row bounds -/

/-- Source: `LimitAndOrderPass.cpp` `LimitBound`. -/
structure RowBound where
  offset : Int64
  count : Int64
  deriving DecidableEq

namespace RowBound

/-- What the constructors of Limit and TopN check. Source: `Node.cpp` `Limit::Limit`,
`TopN::TopN`. -/
def Accepted (b : RowBound) : Prop := 0 ≤ b.offset ∧ 0 ≤ b.count

instance (b : RowBound) : Decidable b.Accepted := inferInstanceAs (Decidable (_ ∧ _))

/-- The bound in natural numbers. -/
def toLimitBound (b : RowBound) : LimitBound := ⟨b.offset.toInt.toNat, b.count.toInt.toNat⟩

/-- The rows a bound selects. -/
def cut (b : RowBound) : Cut := b.toLimitBound.cut

/-- The rows of `inner` left after the rows `outer` skips. Source: `LimitAndOrderPass.cpp`
`collapse`, `afterOuterOffset`. -/
def afterOuterOffset (outer inner : RowBound) : Int64 :=
  if inner.count - outer.offset < 0 then 0 else inner.count - outer.offset

/-- Composes two bounds: `inner` is applied first, then `outer` on its output.
Source: `LimitAndOrderPass.cpp` `collapse`. -/
def collapse (outer inner : RowBound) : RowBound where
  offset := inner.offset + outer.offset
  count :=
    if inner.count = noCount then outer.count
    else if outer.count = noCount then afterOuterOffset outer inner
    else if afterOuterOffset outer inner < outer.count then afterOuterOffset outer inner
    else outer.count

/-- The bound each leg of a union is rewritten under. Source: `LimitAndOrderPass.cpp`
`rewriteUnionAll`, `legBound`. -/
def leg (above : RowBound) : Option RowBound :=
  if above.count = noCount then none else some ⟨0, above.offset + above.count⟩

lemma count_eq_noCount_iff {b : RowBound} (h : b.Accepted) :
    b.count = noCount ↔ b.toLimitBound.count = kNoCount := by
  have hcount := h.2
  rw [Int64.le_iff_toInt_le, Int64.toInt_zero] at hcount
  rw [← Int64.toInt_inj, toInt_noCount, toLimitBound, kNoCount]
  simp only
  omega

lemma toLimitBound_count_le (b : RowBound) : b.toLimitBound.count ≤ kNoCount := by
  have hlt := b.count.toInt_lt
  simp only [toLimitBound, kNoCount]
  omega

lemma toInt_afterOuterOffset {outer inner : RowBound} (houter : outer.Accepted)
    (hinner : inner.Accepted) : (outer.afterOuterOffset inner).toInt =
      max 0 (inner.count.toInt - outer.offset.toInt) := by
  have hsub := toInt_sub_of_nonneg hinner.2 houter.1
  unfold afterOuterOffset
  split
  · rename_i h
    rw [Int64.lt_iff_toInt_lt, Int64.toInt_zero] at h
    rw [Int64.toInt_zero]
    omega
  · rename_i h
    rw [Int64.lt_iff_toInt_lt, Int64.toInt_zero] at h
    omega

/-- The count after a composition, in integers. -/
lemma toInt_collapse_count {outer inner : RowBound} (houter : outer.Accepted)
    (hinner : inner.Accepted) : (outer.collapse inner).count.toInt =
      if inner.count = noCount then outer.count.toInt
      else if outer.count = noCount then max 0 (inner.count.toInt - outer.offset.toInt)
      else min outer.count.toInt (max 0 (inner.count.toInt - outer.offset.toInt)) := by
  have hafter := toInt_afterOuterOffset houter hinner
  by_cases hi : inner.count = noCount
  · simp [collapse, hi]
  · by_cases ho : outer.count = noCount
    · simp [collapse, hi, ho, hafter]
    · by_cases hlt : outer.afterOuterOffset inner < outer.count
      · simp only [collapse, if_neg hi, if_neg ho, if_pos hlt, hafter]
        rw [Int64.lt_iff_toInt_lt] at hlt
        omega
      · simp only [collapse, if_neg hi, if_neg ho, if_neg hlt]
        rw [Int64.lt_iff_toInt_lt] at hlt
        omega

lemma nonneg_toInt {b : RowBound} (h : b.Accepted) : 0 ≤ b.offset.toInt ∧ 0 ≤ b.count.toInt := by
  have hoffset := h.1
  have hcount := h.2
  rw [Int64.le_iff_toInt_le, Int64.toInt_zero] at hoffset hcount
  exact ⟨hoffset, hcount⟩

/-- The count after a composition is never negative. -/
lemma collapse_count_nonneg {outer inner : RowBound} (houter : outer.Accepted)
    (hinner : inner.Accepted) : 0 ≤ (outer.collapse inner).count := by
  have hcount := toInt_collapse_count houter hinner
  have hnonneg := nonneg_toInt houter
  rw [Int64.le_iff_toInt_le, Int64.toInt_zero, hcount]
  split
  · exact hnonneg.2
  · split <;> omega

/-- A composition is accepted if the sum of the offsets fits. -/
lemma collapse_accepted_iff {outer inner : RowBound} (houter : outer.Accepted)
    (hinner : inner.Accepted) :
    (outer.collapse inner).Accepted ↔
      inner.toLimitBound.offset + outer.toLimitBound.offset ≤ kNoCount := by
  have hsum := add_nonneg_iff hinner.1 houter.1
  have ho := houter.1
  have hi := hinner.1
  rw [Int64.le_iff_toInt_le, Int64.toInt_zero] at ho hi
  have hiff : (outer.collapse inner).Accepted ↔ 0 ≤ inner.offset + outer.offset :=
    ⟨fun h => h.1, fun h => ⟨h, collapse_count_nonneg houter hinner⟩⟩
  rw [hiff, hsum]
  simp only [toLimitBound, kNoCount]
  omega

/-- A composition whose offsets fit is the one in natural numbers. -/
theorem toLimitBound_collapse {outer inner : RowBound} (houter : outer.Accepted)
    (hinner : inner.Accepted)
    (h : inner.toLimitBound.offset + outer.toLimitBound.offset ≤ kNoCount) :
    (outer.collapse inner).toLimitBound =
      LimitAndOrder.collapse outer.toLimitBound inner.toLimitBound := by
  have ho := nonneg_toInt houter
  have hi := nonneg_toInt hinner
  have hoffset : (inner.offset + outer.offset).toInt = inner.offset.toInt + outer.offset.toInt := by
    refine toInt_add_of_le hinner.1 houter.1 ?_
    simp only [toLimitBound, kNoCount] at h
    omega
  have hcount := toInt_collapse_count houter hinner
  simp only [count_eq_noCount_iff hinner, count_eq_noCount_iff houter] at hcount
  rw [toLimitBound, LimitAndOrder.collapse, LimitBound.mk.injEq]
  refine ⟨?_, ?_⟩
  · show (inner.offset + outer.offset).toInt.toNat = _
    simp only [hoffset, toLimitBound]
    omega
  · rw [hcount]
    by_cases hinnerNo : inner.toLimitBound.count = kNoCount
    · rw [if_pos hinnerNo, if_pos hinnerNo]
      rfl
    · rw [if_neg hinnerNo, if_neg hinnerNo]
      by_cases houterNo : outer.toLimitBound.count = kNoCount
      · rw [if_pos houterNo, if_pos houterNo]
        simp only [toLimitBound]
        omega
      · rw [if_neg houterNo, if_neg houterNo]
        simp only [toLimitBound]
        omega

/-- The bound of a leg is accepted if the sum fits. -/
lemma leg_accepted_iff {above bound : RowBound} (h : above.Accepted)
    (hleg : above.leg = some bound) :
    bound.Accepted ↔ above.toLimitBound.offset + above.toLimitBound.count ≤ kNoCount := by
  unfold leg at hleg
  split at hleg
  · cases hleg
  · cases hleg
    have hsum := add_nonneg_iff h.1 h.2
    have ho := h.1
    have hc := h.2
    rw [Int64.le_iff_toInt_le, Int64.toInt_zero] at ho hc
    have hiff : (⟨0, above.offset + above.count⟩ : RowBound).Accepted ↔
        0 ≤ above.offset + above.count := ⟨fun h => h.2, fun h => ⟨Int64.le_refl _, h⟩⟩
    rw [hiff, hsum]
    simp only [toLimitBound, kNoCount]
    omega

/-- The bound of a leg whose sum fits is the one in natural numbers. -/
theorem toLimitBound_leg {above : RowBound} (h : above.Accepted)
    (hfits : above.toLimitBound.count ≠ kNoCount →
      above.toLimitBound.offset + above.toLimitBound.count ≤ kNoCount) :
    above.leg.map toLimitBound = legBound (some above.toLimitBound) := by
  have hno := count_eq_noCount_iff h
  unfold leg legBound
  by_cases hcount : above.toLimitBound.count = kNoCount
  · simp [hno.mpr hcount, hcount]
  · have hne : above.count ≠ noCount := fun heq => hcount (hno.mp heq)
    have ho := h.1
    have hc := h.2
    rw [Int64.le_iff_toInt_le, Int64.toInt_zero] at ho hc
    have hsum : (above.offset + above.count).toInt = above.offset.toInt + above.count.toInt := by
      refine toInt_add_of_le h.1 h.2 ?_
      have := hfits hcount
      simp only [toLimitBound, kNoCount] at this
      omega
    have hbound : (⟨0, above.offset + above.count⟩ : RowBound).toLimitBound =
        ⟨0, above.toLimitBound.offset + above.toLimitBound.count⟩ := by
      simp only [toLimitBound, hsum, Int64.toInt_zero, Int.toNat_add ho hc]
      rfl
    rw [if_neg hne]
    simp only [if_neg hcount, Option.map_some, hbound]

end RowBound

/-! ### Chains -/

/-- Plans of Limit, TopN, Sort and UnionAll nodes over inputs that deliver rows in any order or in
one. -/
inductive Chain (ρ : Type)
  | scan (rows : List ρ)
  | values (rows : List ρ)
  | limit (input : Chain ρ) (bound : RowBound)
  | sort (input : Chain ρ) (order : SortOrder ρ)
  | topN (input : Chain ρ) (order : SortOrder ρ) (bound : RowBound)
  | unionAll (inputs : List (Chain ρ)) (legColumns : List (ρ → ρ))

namespace Chain

variable {ρ : Type}

/-- Source: `Node.cpp` `Limit::Limit`. -/
def makeLimit (input : Chain ρ) (bound : RowBound) : Except String (Chain ρ) :=
  if bound.offset < 0 then .error "offset_ >= 0"
  else if bound.count < 0 then .error "count_ >= 0"
  else .ok (.limit input bound)

/-- Source: `Node.cpp` `TopN::TopN`. -/
def makeTopN (input : Chain ρ) (order : SortOrder ρ) (bound : RowBound) :
    Except String (Chain ρ) :=
  if bound.offset < 0 then .error "offset_ >= 0"
  else if bound.count < 0 then .error "count_ >= 0"
  else .ok (.topN input order bound)

/-- Source: `LimitAndOrderPass.cpp` `materialize`. -/
def materialize (pending : Option RowBound) (node : Chain ρ) : Except String (Chain ρ) :=
  match pending with
  | none => .ok node
  | some bound => makeLimit node bound

/-- The pending bound folded into that of a Limit. Source: `LimitAndOrderPass.cpp` `rewriteLimit`,
`bound`. -/
def folded (pending : Option RowBound) (here : RowBound) : RowBound :=
  match pending with
  | none => here
  | some pending => pending.collapse here

/-- A Sort over its rewritten input. Source: `LimitAndOrderPass.cpp` `rewriteSort`. -/
def placeSort (order : SortOrder ρ) (pending : Option RowBound) (orderPreserved : Bool)
    (newInput : Chain ρ) : Except String (Chain ρ) :=
  match pending with
  | some bound =>
    if bound.count ≠ noCount then makeTopN newInput order bound
    else materialize (some bound) (.sort newInput order)
  | none => if orderPreserved then .ok (.sort newInput order) else .ok newInput

/-- A TopN over its rewritten input. Source: `LimitAndOrderPass.cpp` `rewriteTopN`. -/
def placeTopN (order : SortOrder ρ) (here : RowBound) (pending : Option RowBound)
    (newInput : Chain ρ) : Except String (Chain ρ) :=
  match pending with
  | some bound =>
    let folded := bound.collapse here
    if folded.count = 0 then .ok (.values []) else makeTopN newInput order folded
  | none => makeTopN newInput order here

mutual

/-- The rewriter, under a pending bound and whether the order of rows reaches the query output.
Source: `LimitAndOrderPass.cpp` `LimitAndOrderRewriter`. -/
def rewrite : Chain ρ → Option RowBound → Bool → Except String (Chain ρ)
  | .scan rows, pending, _ => materialize pending (.scan rows)
  | .values rows, pending, _ => materialize pending (.values rows)
  | .limit input here, pending, orderPreserved =>
    let bound := folded pending here
    if bound.count = 0 then .ok (.values []) else rewrite input (some bound) orderPreserved
  | .sort input order, pending, orderPreserved =>
    rewrite input none false >>= placeSort order pending orderPreserved
  | .topN input order here, pending, _ => rewrite input none false >>= placeTopN order here pending
  | .unionAll inputs legColumns, pending, _ =>
    rewriteLegs inputs (pending.bind RowBound.leg) >>= fun legs =>
      materialize pending (.unionAll legs legColumns)

/-- The legs of a union. Source: `LimitAndOrderPass.cpp` `rewriteUnionAll`. -/
def rewriteLegs : List (Chain ρ) → Option RowBound → Except String (List (Chain ρ))
  | [], _ => .ok []
  | leg :: legs, bound =>
    rewrite leg bound false >>= fun leg => (rewriteLegs legs bound).map (leg :: ·)

end

/-- Source: `LimitAndOrderPass.cpp` `LimitAndOrderPass::run`. -/
def run (root : Chain ρ) : Except String (Chain ρ) := rewrite root none true

mutual

/-- The offsets and counts of the Limits and TopNs of a plan. -/
def bounds : Chain ρ → List RowBound
  | .scan _ | .values _ => []
  | .limit input bound | .topN input _ bound => bound :: bounds input
  | .sort input _ => bounds input
  | .unionAll inputs _ => boundsOfLegs inputs

/-- Those of the legs of a union. -/
def boundsOfLegs : List (Chain ρ) → List RowBound
  | [] => []
  | leg :: legs => bounds leg ++ boundsOfLegs legs

end

/-- A plan whose constructors accept. -/
def Accepted (plan : Chain ρ) : Prop := ∀ bound ∈ plan.bounds, bound.Accepted

mutual

/-- The plan with its offsets and counts as natural numbers. -/
def toNode : Chain ρ → Node ρ Unit
  | .scan rows => .scan rows
  | .values rows => .values rows
  | .limit input bound => .limit (toNode input) bound.toLimitBound.offset bound.toLimitBound.count
  | .sort input order => .sort (toNode input) order
  | .topN input order bound =>
    .topN (toNode input) order bound.toLimitBound.offset bound.toLimitBound.count
  | .unionAll inputs legColumns => .unionAll (toNodes inputs) legColumns

/-- The plans of the legs of a union. -/
def toNodes : List (Chain ρ) → List (Node ρ Unit)
  | [] => []
  | leg :: legs => toNode leg :: toNodes legs

end

/-! ### The bounds the walk computes -/

/-- A computation of the walk: a composition, or the bound of the legs of a union. -/
inductive Computation
  | collapse (outer inner : RowBound)
  | leg (above : RowBound)

/-- **The result of a computation is accepted and exact**: a composition selects the rows that
applying the two bounds one after the other selects, and a leg's bound, if any, covers the rows that
the bound above skips and keeps. -/
def Computation.Exact : Computation → Prop
  | collapse outer inner =>
    (outer.collapse inner).Accepted ∧ (outer.collapse inner).cut = outer.cut.after inner.cut
  | leg above => ∀ bound, above.leg = some bound →
    bound.Accepted ∧ above.offset.toInt + above.count.toInt ≤ bound.count.toInt

mutual

/-- The computations of the walk from a node under a pending bound. -/
def computations : Chain ρ → Option RowBound → List Computation
  | .scan _, _ | .values _, _ => []
  | .limit input here, pending =>
    let bound := folded pending here
    (pending.map fun outer => Computation.collapse outer here).toList ++
      if bound.count = 0 then [] else computations input (some bound)
  | .sort input _, _ => computations input none
  | .topN input _ here, pending =>
    (pending.map fun outer => Computation.collapse outer here).toList ++ computations input none
  | .unionAll inputs _, pending =>
    (pending.map Computation.leg).toList ++ computationsOfLegs inputs (pending.bind RowBound.leg)

/-- Those of the legs of a union. -/
def computationsOfLegs : List (Chain ρ) → Option RowBound → List Computation
  | [], _ => []
  | leg :: legs, bound => computations leg bound ++ computationsOfLegs legs bound

end

/-! ### When the sums fit -/

/-- What the legs of a union have to deliver below a cut. -/
def legCut (above : Cut) : Cut :=
  match above.keep with
  | none => .all
  | some count => LimitBound.cut ⟨0, above.skip + count⟩

mutual

/-- **The sums fit**, where `above` selects the rows that the Limits above keep: the offsets of Limits
that follow each other add up to a 64-bit number, as far down as they leave rows, and so do the rows
skipped and kept above a union. -/
def Fits : Chain ρ → Cut → Prop
  | .scan _, _ | .values _, _ => True
  | .limit input here, above =>
    let cut := above.after here.cut
    cut.skip ≤ kNoCount ∧ (cut.keep = some 0 ∨ Fits input cut)
  | .sort input _, _ => Fits input .all
  | .topN input _ here, above => (above.after here.cut).skip ≤ kNoCount ∧ Fits input .all
  | .unionAll inputs _, above =>
    (∀ count, above.keep = some count → above.skip + count ≤ kNoCount) ∧
      FitsLegs inputs (legCut above)

/-- The sums fit in the legs of a union. -/
def FitsLegs : List (Chain ρ) → Cut → Prop
  | [], _ => True
  | leg :: legs, above => Fits leg above ∧ FitsLegs legs above

end

/-! ### Exact iff the sums fit -/

/-- The rows that a pending bound selects. -/
def aboveCut (pending : Option RowBound) : Cut := pendingCut (pending.map RowBound.toLimitBound)

@[simp] lemma aboveCut_some (bound : RowBound) : aboveCut (some bound) = bound.cut := rfl

/-- Every composition is the exact one iff the rows skipped fit. -/
lemma collapse_exact_iff {outer inner : RowBound} (houter : outer.Accepted)
    (hinner : inner.Accepted) :
    (Computation.collapse outer inner).Exact ↔
      (outer.cut.after inner.cut).skip ≤ kNoCount := by
  have hfits := RowBound.collapse_accepted_iff houter hinner
  have hskip : (outer.cut.after inner.cut).skip =
      inner.toLimitBound.offset + outer.toLimitBound.offset := rfl
  rw [hskip, ← hfits, Computation.Exact]
  refine ⟨fun h => h.1, fun h => ⟨h, ?_⟩⟩
  rw [RowBound.cut, RowBound.toLimitBound_collapse houter hinner (hfits.mp h),
    LimitAndOrder.collapse_cut inner.toLimitBound_count_le]
  rfl

/-- The bound of a leg is exact iff the rows skipped and kept above fit. -/
lemma leg_exact_iff {above : RowBound} (h : above.Accepted) :
    (Computation.leg above).Exact ↔
      ∀ count, above.cut.keep = some count → above.cut.skip + count ≤ kNoCount := by
  have hno := RowBound.count_eq_noCount_iff h
  have hnonneg := RowBound.nonneg_toInt h
  rw [Computation.Exact]
  by_cases hcount : above.count = noCount
  · have hcut : above.cut.keep = none := if_pos (hno.mp hcount)
    simp [RowBound.leg, hcount, hcut]
  · have hcut : above.cut.keep = some above.toLimitBound.count :=
      if_neg fun heq => hcount (hno.mpr heq)
    have hleg : above.leg = some ⟨0, above.offset + above.count⟩ := if_neg hcount
    have hfits := RowBound.leg_accepted_iff h hleg
    have hskip : above.cut.skip = above.toLimitBound.offset := rfl
    simp only [hcut, hleg, hskip, Option.some.injEq, forall_eq']
    rw [← hfits]
    refine ⟨fun hexact => hexact.1, fun haccepted => ⟨haccepted, ?_⟩⟩
    have hsum := (add_nonneg_iff h.1 h.2).mp haccepted.2
    rw [toInt_add_of_le h.1 h.2 hsum]

section folded

variable {pending : Option RowBound} {here : RowBound}

/-- A bound folded where the sum of the offsets fits. -/
lemma folded_of_fits (hpending : ∀ bound ∈ pending, bound.Accepted) (hhere : here.Accepted)
    (h : ((aboveCut pending).after here.cut).skip ≤ kNoCount) :
    (folded pending here).Accepted ∧ (folded pending here).toLimitBound =
      foldedBound (pending.map RowBound.toLimitBound) here.toLimitBound := by
  cases pending with
  | none => exact ⟨hhere, rfl⟩
  | some outer =>
    have houter := hpending outer rfl
    exact ⟨(RowBound.collapse_accepted_iff houter hhere).mpr h,
      RowBound.toLimitBound_collapse houter hhere h⟩

/-- It selects what the pending bound selects of what it finds. -/
lemma cut_folded (h : (folded pending here).toLimitBound =
      foldedBound (pending.map RowBound.toLimitBound) here.toLimitBound) :
    (folded pending here).cut = (aboveCut pending).after here.cut := by
  rw [RowBound.cut, h, foldedBound_cut here.toLimitBound_count_le]
  rfl

/-- It keeps no rows iff its count is zero. -/
lemma count_eq_zero_iff {bound : RowBound} (h : bound.Accepted) :
    bound.count = 0 ↔ bound.cut.keep = some 0 := by
  have hnonneg := RowBound.nonneg_toInt h
  have hzero : bound.count = 0 ↔ bound.toLimitBound.count = 0 := by
    rw [← Int64.toInt_inj, Int64.toInt_zero, RowBound.toLimitBound]
    simp only
    omega
  rw [hzero, RowBound.cut, LimitBound.cut]
  simp only
  split
  · rename_i hno
    simp only [hno]
    decide
  · simp

/-- The composition at a Limit or TopN is exact iff the rows skipped fit. -/
lemma folded_exact_iff (hpending : ∀ bound ∈ pending, bound.Accepted) (hhere : here.Accepted) :
    (∀ step ∈ (pending.map fun outer => Computation.collapse outer here).toList, step.Exact) ↔
      ((aboveCut pending).after here.cut).skip ≤ kNoCount := by
  cases pending with
  | none =>
    have hskip : ((aboveCut none).after here.cut).skip = here.toLimitBound.offset := rfl
    have hlt := here.offset.toInt_lt
    rw [hskip]
    simp only [Option.map_none, Option.toList_none, List.not_mem_nil, IsEmpty.forall_iff,
      implies_true, true_iff, RowBound.toLimitBound, kNoCount]
    omega
  | some outer => simpa using collapse_exact_iff (hpending outer rfl) hhere

/-- The bound of the legs under a pending bound. -/
lemma legs_exact_iff (hpending : ∀ bound ∈ pending, bound.Accepted) :
    (∀ step ∈ (pending.map Computation.leg).toList, step.Exact) ↔
      ∀ count, (aboveCut pending).keep = some count → (aboveCut pending).skip + count ≤ kNoCount := by
  cases pending with
  | none => simp [aboveCut, pendingCut, Cut.all]
  | some above => simpa using leg_exact_iff (hpending above rfl)

/-- The bound of the legs where the sum fits. -/
lemma leg_of_fits (hpending : ∀ bound ∈ pending, bound.Accepted)
    (h : ∀ count, (aboveCut pending).keep = some count →
      (aboveCut pending).skip + count ≤ kNoCount) :
    (∀ bound ∈ pending.bind RowBound.leg, bound.Accepted) ∧
      (pending.bind RowBound.leg).map RowBound.toLimitBound =
        legBound (pending.map RowBound.toLimitBound) := by
  cases pending with
  | none => exact ⟨fun _ h => (by cases h), rfl⟩
  | some above =>
    have habove := hpending above rfl
    have hexact := (leg_exact_iff habove).mpr h
    refine ⟨fun bound hbound => (hexact bound hbound).1, ?_⟩
    refine RowBound.toLimitBound_leg habove fun hcount => h _ ?_
    exact if_neg hcount

/-- The legs see the rows they have to deliver. -/
lemma pendingCut_legBound (pending : Option LimitBound) :
    pendingCut (legBound pending) = legCut (pendingCut pending) := by
  cases pending with
  | none => rfl
  | some bound =>
    by_cases hcount : bound.count = kNoCount
    · simp [legBound, pendingCut, legCut, LimitBound.cut, hcount]
    · simp [legBound, pendingCut, legCut, LimitBound.cut, hcount]

end folded

mutual

/-- **Every bound the walk computes is exact iff the sums fit.** -/
theorem computations_exact_iff : ∀ (node : Chain ρ) (pending : Option RowBound), node.Accepted →
    (∀ bound ∈ pending, bound.Accepted) →
    ((∀ step ∈ computations node pending, step.Exact) ↔ Fits node (aboveCut pending))
  | .scan _, _, _, _ | .values _, _, _, _ => by simp [computations, Fits]
  | .limit input here, pending, hnode, hpending => by
    have hhere : here.Accepted := hnode here List.mem_cons_self
    have hinput : input.Accepted := fun bound hbound => hnode bound (List.mem_cons_of_mem _ hbound)
    simp only [computations, Fits, List.forall_mem_append, folded_exact_iff hpending hhere]
    refine and_congr_right fun hfits => ?_
    obtain ⟨hbound, heq⟩ := folded_of_fits hpending hhere hfits
    have hcut := cut_folded heq
    rw [← hcut, ← count_eq_zero_iff hbound]
    by_cases hzero : (folded pending here).count = 0
    · simp [hzero]
    · rw [if_neg hzero, computations_exact_iff input _ hinput fun b hb => by
        cases hb
        exact hbound]
      simp only [hzero, false_or]
      rfl
  | .sort input order, pending, hnode, hpending => by
    simp only [computations, Fits]
    exact computations_exact_iff input none hnode fun _ h => by cases h
  | .topN input order here, pending, hnode, hpending => by
    have hhere : here.Accepted := hnode here List.mem_cons_self
    have hinput : input.Accepted := fun bound hbound => hnode bound (List.mem_cons_of_mem _ hbound)
    simp only [computations, Fits, List.forall_mem_append, folded_exact_iff hpending hhere]
    refine and_congr_right fun _ => ?_
    exact computations_exact_iff input none hinput fun _ h => by cases h
  | .unionAll inputs _, pending, hnode, hpending => by
    simp only [computations, Fits, List.forall_mem_append, legs_exact_iff hpending]
    refine and_congr_right fun hfits => ?_
    obtain ⟨hlegs, heq⟩ := leg_of_fits hpending hfits
    rw [computationsOfLegs_exact_iff inputs _ hnode hlegs, aboveCut, heq, pendingCut_legBound]
    rfl

/-- The same over the legs of a union. -/
theorem computationsOfLegs_exact_iff : ∀ (legs : List (Chain ρ)) (pending : Option RowBound),
    (∀ bound ∈ boundsOfLegs legs, bound.Accepted) → (∀ bound ∈ pending, bound.Accepted) →
    ((∀ step ∈ computationsOfLegs legs pending, step.Exact) ↔ FitsLegs legs (aboveCut pending))
  | [], _, _, _ => by simp [computationsOfLegs, FitsLegs]
  | leg :: legs, pending, hlegs, hpending => by
    simp only [boundsOfLegs, List.forall_mem_append] at hlegs
    simp only [computationsOfLegs, FitsLegs, List.forall_mem_append]
    rw [computations_exact_iff leg pending hlegs.1 hpending,
      computationsOfLegs_exact_iff legs pending hlegs.2 hpending]

end

/-! ### Where the sums fit, both passes return the same plan -/

lemma makeLimit_of_accepted {input : Chain ρ} {bound : RowBound} (h : bound.Accepted) :
    makeLimit input bound = .ok (.limit input bound) := by
  rw [makeLimit, if_neg (Int64.not_lt.mpr h.1), if_neg (Int64.not_lt.mpr h.2)]

lemma makeTopN_of_accepted {input : Chain ρ} {order : SortOrder ρ} {bound : RowBound}
    (h : bound.Accepted) : makeTopN input order bound = .ok (.topN input order bound) := by
  rw [makeTopN, if_neg (Int64.not_lt.mpr h.1), if_neg (Int64.not_lt.mpr h.2)]

/-- Both passes over a node, under the same bounds: no constructor rejects its bound, and the plans
are the same. -/
def Agrees (result : Except String (Chain ρ)) (node : Node ρ Unit) : Prop :=
  ∃ plan, result = .ok plan ∧ plan.Accepted ∧ plan.toNode = node

lemma agrees_limit {plan : Chain ρ} {bound : RowBound} (hplan : plan.Accepted)
    (hbound : bound.Accepted) : Agrees (makeLimit plan bound)
      (.limit plan.toNode bound.toLimitBound.offset bound.toLimitBound.count) :=
  ⟨_, makeLimit_of_accepted hbound, List.forall_mem_cons.mpr ⟨hbound, hplan⟩, rfl⟩

lemma agrees_topN {plan : Chain ρ} {order : SortOrder ρ} {bound : RowBound} (hplan : plan.Accepted)
    (hbound : bound.Accepted) : Agrees (makeTopN plan order bound)
      (.topN plan.toNode order bound.toLimitBound.offset bound.toLimitBound.count) :=
  ⟨_, makeTopN_of_accepted hbound, List.forall_mem_cons.mpr ⟨hbound, hplan⟩, rfl⟩

lemma agrees_empty : Agrees (.ok (.values [] : Chain ρ)) makeEmptyValues :=
  ⟨_, rfl, fun _ h => (by cases h), rfl⟩

section places

variable {pending : Option RowBound} {plan : Chain ρ}

lemma agrees_materialize (hplan : plan.Accepted) (hpending : ∀ bound ∈ pending, bound.Accepted) :
    Agrees (materialize pending plan)
      (LimitAndOrder.materialize (pending.map RowBound.toLimitBound) plan.toNode) := by
  cases pending with
  | none => exact ⟨plan, rfl, hplan, rfl⟩
  | some bound => exact agrees_limit hplan (hpending bound rfl)

/-- A Sort over an input that both passes rewrote alike. -/
lemma agrees_placeSort {rewriteInput : Rewrite ρ Unit} {order : SortOrder ρ} {orderPreserved : Bool}
    (hplan : plan.Accepted) (hinput : plan.toNode = (rewriteInput ⟨none, false⟩).1)
    (hpending : ∀ bound ∈ pending, bound.Accepted) :
    Agrees (placeSort order pending orderPreserved plan)
      (rewriteSort rewriteInput order ⟨pending.map RowBound.toLimitBound, orderPreserved⟩).1 := by
  cases pending with
  | none =>
    cases orderPreserved with
    | false => exact ⟨plan, rfl, hplan, hinput⟩
    | true => exact ⟨.sort plan order, rfl, hplan, by rw [toNode, hinput]; rfl⟩
  | some bound =>
    have hbound := hpending bound rfl
    have hno := RowBound.count_eq_noCount_iff hbound
    by_cases hcount : bound.count = noCount
    · have hright : (rewriteSort rewriteInput order ⟨some bound.toLimitBound, orderPreserved⟩).1 =
          .limit (.sort plan.toNode order) bound.toLimitBound.offset bound.toLimitBound.count := by
        simp [rewriteSort, hno.mp hcount, LimitAndOrder.materialize, hinput]
      rw [placeSort, if_neg (not_not.mpr hcount), Option.map_some, hright]
      have hsorted : (Chain.sort plan order).Accepted := hplan
      exact agrees_limit hsorted hbound
    · have hne : bound.toLimitBound.count ≠ kNoCount := fun heq => hcount (hno.mpr heq)
      have hright : (rewriteSort rewriteInput order ⟨some bound.toLimitBound, orderPreserved⟩).1 =
          .topN plan.toNode order bound.toLimitBound.offset bound.toLimitBound.count := by
        simp [rewriteSort, hne, hinput]
      rw [placeSort, if_pos hcount, Option.map_some, hright]
      exact agrees_topN hplan hbound

/-- A TopN over an input that both passes rewrote alike. -/
lemma agrees_placeTopN {rewriteInput : Rewrite ρ Unit} {order : SortOrder ρ} {here : RowBound}
    {orderPreserved : Bool} (hplan : plan.Accepted)
    (hinput : plan.toNode = (rewriteInput ⟨none, false⟩).1) (hhere : here.Accepted)
    (hpending : ∀ bound ∈ pending, bound.Accepted)
    (hfits : ((aboveCut pending).after here.cut).skip ≤ kNoCount) :
    Agrees (placeTopN order here pending plan)
      (rewriteTopN rewriteInput order here.toLimitBound
        ⟨pending.map RowBound.toLimitBound, orderPreserved⟩).1 := by
  obtain ⟨haccepted, heq⟩ := folded_of_fits hpending hhere hfits
  cases pending with
  | none =>
    rw [placeTopN, Option.map_none, rewriteTopN, ← hinput]
    exact agrees_topN hplan hhere
  | some outer =>
    have hzero : (outer.collapse here).count = 0 ↔
        (LimitAndOrder.collapse outer.toLimitBound here.toLimitBound).count = 0 := by
      have hnonneg := RowBound.nonneg_toInt haccepted
      change _ = LimitAndOrder.collapse _ _ at heq
      rw [← heq, ← Int64.toInt_inj, Int64.toInt_zero, RowBound.toLimitBound]
      change (outer.collapse here).count.toInt = 0 ↔ (outer.collapse here).count.toInt.toNat = 0
      have hcount : 0 ≤ (outer.collapse here).count.toInt := hnonneg.2
      omega
    by_cases hcount : (outer.collapse here).count = 0
    · have hright : (rewriteTopN rewriteInput order here.toLimitBound
          ⟨some outer.toLimitBound, orderPreserved⟩).1 = makeEmptyValues := by
        simp [rewriteTopN, hzero.mp hcount]
      rw [placeTopN, if_pos hcount, Option.map_some, hright]
      exact agrees_empty
    · have hright : (rewriteTopN rewriteInput order here.toLimitBound
          ⟨some outer.toLimitBound, orderPreserved⟩).1 =
            .topN plan.toNode order (outer.collapse here).toLimitBound.offset
              (outer.collapse here).toLimitBound.count := by
        change _ = LimitAndOrder.collapse _ _ at heq
        change (outer.collapse here).toLimitBound = _ at heq
        simp [rewriteTopN, hzero.not.mp hcount, hinput, heq]
      rw [placeTopN, if_neg hcount, Option.map_some, hright]
      exact agrees_topN hplan haccepted

end places

mutual

/-- **Where the sums fit, no constructor rejects its bound, and both passes return the same plan.** -/
theorem rewrite_agrees : ∀ (node : Chain ρ) (pending : Option RowBound) (orderPreserved : Bool),
    node.Accepted → (∀ bound ∈ pending, bound.Accepted) → Fits node (aboveCut pending) →
    Agrees (rewrite node pending orderPreserved)
      (LimitAndOrder.rewrite (fun _ _ => false) node.toNode
        ⟨pending.map RowBound.toLimitBound, orderPreserved⟩).1
  | .scan rows, pending, _, hnode, hpending, _ =>
    @agrees_materialize _ _ (.scan rows) hnode hpending
  | .values rows, pending, _, hnode, hpending, _ =>
    @agrees_materialize _ _ (.values rows) hnode hpending
  | .limit input here, pending, orderPreserved, hnode, hpending, hfits => by
    have hhere : here.Accepted := hnode here List.mem_cons_self
    have hinput : input.Accepted := fun bound hbound => hnode bound (List.mem_cons_of_mem _ hbound)
    obtain ⟨hskip, hrest⟩ := hfits
    obtain ⟨hbound, heq⟩ := folded_of_fits hpending hhere hskip
    have hcut := cut_folded heq
    rw [← hcut, ← count_eq_zero_iff hbound] at hrest
    have hzero : (folded pending here).count = 0 ↔
        (foldedBound (pending.map RowBound.toLimitBound) here.toLimitBound).count = 0 := by
      have hnonneg := (RowBound.nonneg_toInt hbound).2
      rw [← heq, ← Int64.toInt_inj, Int64.toInt_zero]
      show _ ↔ (folded pending here).count.toInt.toNat = 0
      omega
    rw [rewrite, toNode, LimitAndOrder.rewrite, rewriteLimit]
    by_cases hcount : (folded pending here).count = 0
    · simp only [if_pos hcount]
      rw [if_pos (hzero.mp hcount)]
      exact agrees_empty
    · simp only [if_neg hcount]
      rw [if_neg (hzero.not.mp hcount)]
      have hrewrite := rewrite_agrees input (some (folded pending here)) orderPreserved hinput
        (fun b hb => by cases hb; exact hbound) (hrest.resolve_left hcount)
      rwa [Option.map_some, heq] at hrewrite
  | .sort input order, pending, orderPreserved, hnode, hpending, hfits => by
    obtain ⟨plan, hrewrite, hplan, heq⟩ :=
      rewrite_agrees input none false hnode (fun _ h => by cases h) hfits
    rw [rewrite, hrewrite]
    exact agrees_placeSort hplan heq hpending
  | .topN input order here, pending, orderPreserved, hnode, hpending, hfits => by
    have hhere : here.Accepted := hnode here List.mem_cons_self
    have hinput : input.Accepted := fun bound hbound => hnode bound (List.mem_cons_of_mem _ hbound)
    obtain ⟨plan, hrewrite, hplan, heq⟩ :=
      rewrite_agrees input none false hinput (fun _ h => by cases h) hfits.2
    rw [rewrite, hrewrite]
    exact agrees_placeTopN hplan heq hhere hpending hfits.1
  | .unionAll inputs legColumns, pending, orderPreserved, hnode, hpending, hfits => by
    obtain ⟨hlegs, heq⟩ := leg_of_fits hpending hfits.1
    have hfitsLegs : FitsLegs inputs (aboveCut (pending.bind RowBound.leg)) := by
      rw [aboveCut, heq, pendingCut_legBound]
      exact hfits.2
    obtain ⟨legs, hrewrite, haccepted, hnodes⟩ := rewriteLegs_agrees inputs _ hnode hlegs hfitsLegs
    rw [rewrite, hrewrite, toNode, LimitAndOrder.rewrite, rewriteUnionAll]
    rw [heq] at hnodes
    have hplan := @agrees_materialize _ _ (.unionAll legs legColumns) haccepted hpending
    rw [toNode, hnodes] at hplan
    exact hplan

/-- The same over the legs of a union. -/
theorem rewriteLegs_agrees : ∀ (legs : List (Chain ρ)) (pending : Option RowBound),
    (∀ bound ∈ boundsOfLegs legs, bound.Accepted) → (∀ bound ∈ pending, bound.Accepted) →
    FitsLegs legs (aboveCut pending) →
    ∃ plans, rewriteLegs legs pending = .ok plans ∧
      (∀ bound ∈ boundsOfLegs plans, bound.Accepted) ∧
      toNodes plans = LimitAndOrder.rewriteLegs (fun _ _ => false) (toNodes legs)
        (pending.map RowBound.toLimitBound)
  | [], _, _, _, _ => ⟨[], rfl, fun _ h => (by cases h), rfl⟩
  | leg :: legs, pending, hlegs, hpending, hfits => by
    simp only [boundsOfLegs, List.forall_mem_append] at hlegs
    obtain ⟨plan, hrewrite, hplan, heq⟩ := rewrite_agrees leg pending false hlegs.1 hpending hfits.1
    obtain ⟨plans, hrewrites, hplans, heqs⟩ := rewriteLegs_agrees legs pending hlegs.2 hpending hfits.2
    refine ⟨plan :: plans, ?_, ?_, ?_⟩
    · rw [rewriteLegs, hrewrite, hrewrites]
      rfl
    · simp only [boundsOfLegs, List.forall_mem_append]
      exact ⟨hplan, hplans⟩
    · rw [toNodes, toNodes, LimitAndOrder.rewriteLegs, heq, heqs]

end

/-! ### The rewritten plan keeps the same rows -/

lemma appendAll_nonempty {Ds : List (Set (List ρ))} (h : ∀ D ∈ Ds, D.Nonempty) :
    (appendAll Ds).Nonempty := by
  have hinputs : ∃ inputs,
      List.Forall₂ (fun (k : List ρ) (D : Set (List ρ)) => ∃ m ∈ D, k.Perm m) inputs Ds := by
    induction Ds with
    | nil => exact ⟨[], .nil⟩
    | cons D Ds ih =>
      obtain ⟨inputs, hinputs⟩ := ih fun D' hD' => h D' (List.mem_cons_of_mem D hD')
      obtain ⟨m, hm⟩ := h D List.mem_cons_self
      exact ⟨m :: inputs, .cons ⟨m, hm, List.Perm.refl _⟩ hinputs⟩
  obtain ⟨inputs, hinputs⟩ := hinputs
  exact ⟨inputs.flatten, inputs, hinputs, _, rfl, List.Perm.refl _⟩

lemma sorted_nonempty {order : SortOrder ρ} {D : Set (List ρ)} (h : D.Nonempty) :
    (sorted (fun a b => order.le a b = true) D).Nonempty := by
  obtain ⟨l, hl⟩ := h
  have htotal : Std.Total fun a b => order.le a b = true :=
    ⟨fun a b => by simpa using order.total a b⟩
  have htrans : IsTrans ρ fun a b => order.le a b = true := ⟨order.trans⟩
  exact ⟨_, List.pairwise_insertionSort _ l, l, hl, List.perm_insertionSort _ l⟩

mutual

/-- A chain never raises: it always has something to deliver. -/
lemma delivers_nonempty : ∀ (node : Chain ρ) (st : State ρ), (Delivers node.toNode st).Nonempty
  | .scan rows, _ => ⟨rows, List.Perm.refl _⟩
  | .values rows, _ => ⟨rows, rfl⟩
  | .limit input _, st => (delivers_nonempty input st).image _
  | .sort input _, st => sorted_nonempty (delivers_nonempty input st)
  | .topN input _ _, st => (sorted_nonempty (delivers_nonempty input st)).image _
  | .unionAll inputs legColumns, st => by
    apply appendAll_nonempty
    intro D hD
    rw [← List.map_uncurry_zip_eq_zipWith] at hD
    obtain ⟨⟨column, leg⟩, hpair, rfl⟩ := List.mem_map.mp hD
    obtain ⟨l, hl⟩ := deliversAll_nonempty inputs st leg (List.of_mem_zip hpair).2
    exact ⟨_, l, hl, rfl⟩

/-- So do the legs of a union. -/
lemma deliversAll_nonempty : ∀ (legs : List (Chain ρ)) (st : State ρ),
    ∀ leg ∈ deliversAll (toNodes legs), (leg st).Nonempty
  | [], _ => fun _ h => by cases h
  | leg :: legs, st => by
    intro D hD
    rcases List.mem_cons.mp hD with rfl | hD
    · exact delivers_nonempty leg st
    · exact deliversAll_nonempty legs st D hD

end

mutual

/-- Over a chain whose sums fit the walk does not go wrong. -/
lemma sound_of_fits : ∀ (node : Chain ρ) (observed : Observed) (pending : Option LimitBound)
    (orderPreserved : Bool), Fits node (pendingCut pending) →
    (observed = .sequence → orderPreserved = true) →
    Sound node.toNode observed ⟨pending, orderPreserved⟩
  | .scan _, _, _, _, _, _ | .values _, _, _, _, _, _ => trivial
  | .limit input here, observed, pending, orderPreserved, hfits, horder => by
    obtain ⟨hskip, hrest⟩ := hfits
    have hcut := @foldedBound_cut pending _ here.toLimitBound_count_le
    have hoffset : (foldedBound pending here.toLimitBound).offset =
        ((pendingCut pending).after here.cut).skip := congrArg Cut.skip hcut
    refine ⟨here.toLimitBound_count_le, hoffset ▸ hskip, ?_⟩
    split
    · exact delivers_nonempty input
    · rename_i hcount
      refine sound_of_fits input _ _ _ ?_ ?_
      · show Fits input (foldedBound pending here.toLimitBound).cut
        rw [hcut]
        refine hrest.resolve_left fun hkeep => hcount ?_
        change ((pendingCut pending).after here.toLimitBound.cut).keep = some 0 at hkeep
        rw [← hcut, LimitBound.cut] at hkeep
        simp only at hkeep
        split at hkeep
        · cases hkeep
        · exact Option.some.inj hkeep
      · intro hobserved
        cases observed with
        | sequence => exact horder rfl
        | rows => cases hobserved
        | someRows => cases hobserved
  | .sort input _, observed, pending, orderPreserved, hfits, horder =>
    ⟨fun hobserved _ => horder hobserved,
      sound_of_fits input _ _ _ hfits fun h => by cases h⟩
  | .topN input _ here, observed, pending, orderPreserved, hfits, horder => by
    have hcut := @foldedBound_cut pending _ here.toLimitBound_count_le
    have hoffset : (foldedBound pending here.toLimitBound).offset =
        ((pendingCut pending).after here.cut).skip := congrArg Cut.skip hcut
    exact ⟨here.toLimitBound_count_le, hoffset ▸ hfits.1, fun _ _ => delivers_nonempty input,
      sound_of_fits input _ _ _ hfits.2 fun h => by cases h⟩
  | .unionAll inputs _, observed, pending, orderPreserved, hfits, horder => by
    refine ⟨?_, soundLegs_of_fits inputs _ ?_⟩
    · rintro bound rfl hcount
      exact hfits.1 _ (if_neg hcount)
    · rw [pendingCut_legBound]
      exact hfits.2

/-- The same over the legs of a union. -/
lemma soundLegs_of_fits : ∀ (legs : List (Chain ρ)) (pending : Option LimitBound),
    FitsLegs legs (pendingCut pending) → SoundLegs (toNodes legs) ⟨pending, false⟩
  | [], _, _ => trivial
  | leg :: legs, pending, hfits =>
    ⟨sound_of_fits leg _ _ _ hfits.1 fun h => (by cases h), soundLegs_of_fits legs _ hfits.2⟩

end

/-! ### Row bounds over a whole plan -/

/-- **Row-bound arithmetic is exact over a plan**: every bound the walk computes is accepted and the
exact one; and the pass returns a plan whose Limits and TopNs are accepted, whose saturating sums are
the exact ones cut off at the largest number, and that delivers something, and nothing the plan cannot
deliver. -/
structure RowBoundsHold (root : Chain ρ) : Prop where
  exact : ∀ step ∈ computations root none, step.Exact
  planned : ∃ plan, run root = .ok plan ∧ plan.Accepted ∧
    (∀ bound ∈ plan.bounds, (offsetPlusCount bound.offset bound.count).toInt =
      min (2 ^ 63 - 1) (bound.offset.toInt + bound.count.toInt)) ∧
    ∀ st, (Delivers plan.toNode st).Nonempty ∧ Delivers plan.toNode st ⊆ Delivers root.toNode st

/-- **Row-bound arithmetic is exact over a plan iff the sums fit.** -/
theorem rowBoundsHold_iff {root : Chain ρ} (h : root.Accepted) :
    RowBoundsHold root ↔ Fits root .all := by
  have hpending : ∀ bound ∈ (none : Option RowBound), bound.Accepted := fun _ h => by cases h
  have hexact := computations_exact_iff root none h hpending
  refine ⟨fun hhold => hexact.mp hhold.exact, fun hfits => ⟨hexact.mpr hfits, ?_⟩⟩
  obtain ⟨plan, hrun, hplan, heq⟩ := rewrite_agrees root none true h hpending hfits
  refine ⟨plan, hrun, hplan, fun bound hbound => ?_, fun st => ⟨delivers_nonempty plan st, ?_⟩⟩
  · exact toInt_offsetPlusCount (hplan bound hbound).1 (hplan bound hbound).2
  · have hsound := sound_of_fits root .sequence none true hfits fun _ => rfl
    intro l hl
    rw [heq] at hl
    obtain ⟨l', hl', hrows⟩ :=
      rewrite_refines (fun _ _ => false) root.toNode .sequence ⟨none, true⟩ hsound
        pendingKeepsRows_none st l hl
    rw [hrows]
    exact hl'

/-- Two pages of a list, the second of which starts at an offset. -/
def page (outer inner : RowBound) : Chain ℕ := .limit (.limit (.scan [3, 1, 2]) inner) outer

/-- A page of a union. -/
def pageOfUnion (bound : RowBound) : Chain ℕ := .limit (.unionAll [.scan [1], .scan [2]] [id, id]) bound

/-- The row after the first of the first two rows: the offsets fit. -/
theorem page_rowBoundsHold : RowBoundsHold (page ⟨1, 5⟩ ⟨0, 2⟩) :=
  (@rowBoundsHold_iff _ (page ⟨1, 5⟩ ⟨0, 2⟩) (by
    intro bound hbound
    simp only [page, bounds, List.mem_cons, List.not_mem_nil, or_false] at hbound
    rcases hbound with rfl | rfl <;> decide)).mpr
    ⟨by decide, .inr ⟨by decide, .inr trivial⟩⟩

/-- **Sums that do not fit.** Where offsets add up to more than the largest number, or the rows skipped
and kept above a union do, the sum is negative and a constructor rejects it. -/
theorem rowBounds_wrap :
    ((page ⟨noCount, noCount⟩ ⟨1, noCount⟩).Accepted ∧
      ¬ RowBoundsHold (page ⟨noCount, noCount⟩ ⟨1, noCount⟩)) ∧
    ((pageOfUnion ⟨2, noCount - 1⟩).Accepted ∧ ¬ RowBoundsHold (pageOfUnion ⟨2, noCount - 1⟩)) := by
  refine ⟨⟨?_, fun h => ?_⟩, ⟨?_, fun h => ?_⟩⟩
  · intro bound hbound
    simp only [page, bounds, List.mem_cons, List.not_mem_nil, or_false] at hbound
    rcases hbound with rfl | rfl <;> decide
  · obtain ⟨plan, hrun, -⟩ := h.planned
    have herror : run (page ⟨noCount, noCount⟩ ⟨1, noCount⟩) = .error "offset_ >= 0" := rfl
    rw [herror] at hrun
    cases hrun
  · intro bound hbound
    simp only [pageOfUnion, bounds, boundsOfLegs, List.append_nil, List.mem_singleton] at hbound
    subst hbound
    decide
  · obtain ⟨plan, hrun, -⟩ := h.planned
    have herror : run (pageOfUnion ⟨2, noCount - 1⟩) = .error "count_ >= 0" := rfl
    rw [herror] at hrun
    cases hrun

end Chain

end Verax.LimitAndOrder
