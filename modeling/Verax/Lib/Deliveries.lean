import Mathlib.Data.List.Perm.Subperm
import Mathlib.Data.List.Sort
import Mathlib.Data.List.Forall2
import Mathlib.Data.Set.Image
import Mathlib.Algebra.Order.BigOperators.Group.List
import Mathlib.Algebra.Order.Group.Nat

/-!
# Sequences an operator can deliver

An operator that leaves some order open is a set of sequences: those it can deliver. This module
compares such sets at the accuracy with which a consumer reads them (`Observed`), possibly through a
cut that skips some rows and keeps some of the rest (`Cut`), and shows how each kind of operator
carries a comparison from its input to its output.

* `Refines ob c D' D`: what a consumer sees of `D'` it can see of `D` cut by `c`.
* `Refines.rowwise`: an operator that emits one row for each row commutes with a cut.
* `Refines.inOrder`: one that reads and emits rows in order carries a comparison without a cut; a
  cut above it reads its order.
* `scramble_subset`, `sorted_subset`: operators that read their rows in any order.
* `Refines.appendAll`: the rows of several inputs, each cut to what a cut above can keep.
-/

namespace Verax.Lib.Deliveries

variable {ρ σ : Type*}

/-! ### Cuts -/

/-- Skips some rows and keeps at most a number of the rest. -/
structure Cut where
  skip : ℕ
  keep : Option ℕ
  deriving DecidableEq

namespace Cut

/-- The cut that keeps all rows. -/
def all : Cut := ⟨0, none⟩

/-- The rows that remain. -/
def rows (c : Cut) (l : List ρ) : List ρ :=
  match c.keep with
  | none => l.drop c.skip
  | some n => (l.drop c.skip).take n

/-- How many of a number of rows remain. -/
def size (c : Cut) (n : ℕ) : ℕ :=
  match c.keep with
  | none => n - c.skip
  | some m => min m (n - c.skip)

/-- The cut that applies `inner` and then `outer`. -/
def after (outer inner : Cut) : Cut where
  skip := inner.skip + outer.skip
  keep :=
    match inner.keep, outer.keep with
    | none, keep => keep
    | some n, none => some (n - outer.skip)
    | some n, some m => some (min m (n - outer.skip))

@[simp] lemma rows_all (l : List ρ) : all.rows l = l := rfl

@[simp] lemma rows_nil (c : Cut) : c.rows ([] : List ρ) = [] := by
  unfold rows
  split <;> simp

@[simp] lemma length_rows (c : Cut) (l : List ρ) : (c.rows l).length = c.size l.length := by
  unfold rows size
  split <;> simp

lemma rows_map (c : Cut) (f : ρ → σ) (l : List ρ) : c.rows (l.map f) = (c.rows l).map f := by
  unfold rows
  split <;> simp

lemma rows_zipWith {τ : Type*} (c : Cut) (f : ρ → σ → τ) (l : List ρ) (k : List σ) :
    c.rows (List.zipWith f l k) = List.zipWith f (c.rows l) (c.rows k) := by
  unfold rows
  split
  · rw [List.drop_zipWith]
  · rw [List.drop_zipWith, List.take_zipWith]

lemma rows_sublist (c : Cut) (l : List ρ) : (c.rows l).Sublist l := by
  unfold rows
  split
  · exact List.drop_sublist _ _
  · exact (List.take_sublist _ _).trans (List.drop_sublist _ _)

/-- Applying one cut and then another. -/
theorem rows_after (outer inner : Cut) (l : List ρ) :
    (outer.after inner).rows l = outer.rows (inner.rows l) := by
  obtain ⟨a, m⟩ := outer
  obtain ⟨b, n⟩ := inner
  cases n with
  | none => cases m <;> simp [rows, after, List.drop_drop]
  | some n =>
    cases m with
    | none => simp [rows, after, List.drop_take, List.drop_drop]
    | some m => simp [rows, after, List.drop_take, List.drop_drop, List.take_take]

/-- A cut of rows it skips, rows it keeps and rows behind. -/
lemma rows_append (c : Cut) {before k behind : List ρ} (hbefore : before.length = c.skip)
    (hlen : k.length = c.size (before ++ (k ++ behind)).length) :
    c.rows (before ++ (k ++ behind)) = k := by
  obtain ⟨skip, keep⟩ := c
  subst hbefore
  simp only [List.length_append] at hlen
  cases keep with
  | none =>
    have hbehind : behind = [] := List.eq_nil_of_length_eq_zero (by simp only [size] at hlen; omega)
    simp [rows, hbehind]
  | some n =>
    simp only [size] at hlen
    simp only [rows, List.drop_left]
    by_cases hn : n ≤ k.length
    · rw [List.take_append_of_le_length hn, List.take_of_length_le (by omega)]
    · have hbehind : behind = [] := List.eq_nil_of_length_eq_zero (by omega)
      rw [hbehind, List.append_nil, List.take_of_length_le (by omega)]

/-- **Any rows, as many as a cut keeps, are what it keeps of some arrangement.** -/
theorem exists_perm_rows (c : Cut) {l k : List ρ} (hsub : k.Subperm l)
    (hlen : k.length = c.size l.length) : ∃ m, m.Perm l ∧ c.rows m = k := by
  obtain ⟨k', hk', hsub⟩ := hsub
  obtain ⟨r, hr⟩ := hsub.exists_perm_append
  have hr : l.Perm (k ++ r) := hr.trans (hk'.append_right r)
  have hcount : l.length = k.length + r.length := by rw [hr.length_eq, List.length_append]
  by_cases hskip : c.skip ≤ r.length
  · -- The rows skipped come first, then those kept.
    have hback : (r.take c.skip ++ (k ++ r.drop c.skip)).Perm l := by
      rw [← List.append_assoc]
      refine (List.perm_append_comm.append_right _).trans ?_
      rw [List.append_assoc, List.take_append_drop]
      exact hr.symm
    refine ⟨_, hback, c.rows_append (by simpa using hskip) ?_⟩
    rw [hback.length_eq, hlen]
  · -- More rows are skipped than there are besides those kept, so none is kept.
    have hk : k = [] := by
      apply List.eq_nil_of_length_eq_zero
      have : c.size l.length ≤ l.length - c.skip := by
        unfold size
        split <;> omega
      omega
    refine ⟨l, List.Perm.refl l, ?_⟩
    subst hk
    apply List.eq_nil_of_length_eq_zero
    rw [length_rows, ← hlen, List.length_nil]

/-- What a cut keeps of one arrangement it can keep of any other. -/
lemma exists_perm_rows_of_perm (c : Cut) {l l' k : List ρ} (hl : l.Perm l')
    (hk : k.Perm (c.rows l')) : ∃ m, m.Perm l ∧ c.rows m = k := by
  apply c.exists_perm_rows
  · exact (hk.subperm.trans (c.rows_sublist l').subperm).trans hl.symm.subperm
  · rw [hk.length_eq, length_rows, hl.length_eq]

end Cut

/-! ### Comparison -/

/-- How a consumer reads a sequence: in order, as rows whose order it does not see, or as rows of
which any may be left out as long as as many remain. -/
inductive Observed
  | sequence | rows | someRows
  deriving DecidableEq

/-- What is read of the input of an operator that keeps order, when its output is cut. -/
def Observed.through (ob : Observed) (c : Cut) : Observed :=
  match ob with
  | .sequence => .sequence
  | .rows => if c = Cut.all then .rows else .sequence
  | .someRows => .rows

/-- What is read of the input of a cut. -/
def Observed.cut : Observed → Observed
  | .sequence => .sequence
  | .rows | .someRows => .rows

/-- What a consumer sees of `D'` it can see of `D` cut by `c`. -/
def Refines (ob : Observed) (c : Cut) (D' D : Set (List ρ)) : Prop :=
  match ob with
  | .sequence => ∀ l' ∈ D', ∃ l ∈ D, l' = c.rows l
  | .rows => ∀ l' ∈ D', ∃ l ∈ D, l'.Perm (c.rows l)
  | .someRows => ∀ l' ∈ D', ∃ l ∈ D, ∃ m, m.Perm l ∧ l' = c.rows m

/-- The sequences cut. -/
def cutAll (c : Cut) (D : Set (List ρ)) : Set (List ρ) := c.rows '' D

@[simp] lemma cutAll_all (D : Set (List ρ)) : cutAll .all D = D := by
  rw [cutAll, show (Cut.all.rows : List ρ → List ρ) = id from rfl, Set.image_id]

variable {ob : Observed} {c : Cut} {D D' : Set (List ρ)}

/-- Sequences that agree agree for every consumer. -/
lemma Refines.of_sequence (h : Refines .sequence c D' D) : Refines ob c D' D := by
  cases ob with
  | sequence => exact h
  | rows =>
    intro l' hl'
    obtain ⟨l, hl, rfl⟩ := h l' hl'
    exact ⟨l, hl, List.Perm.refl _⟩
  | someRows =>
    intro l' hl'
    obtain ⟨l, hl, rfl⟩ := h l' hl'
    exact ⟨l, hl, l, List.Perm.refl l, rfl⟩

/-- Rows that are those of the other set, in any order, as long as no consumer reads their order. -/
lemma Refines.of_rows (h : Refines .rows .all D' D) (hob : ob ≠ .sequence) :
    Refines ob .all D' D := by
  cases ob with
  | sequence => exact absurd rfl hob
  | rows => exact h
  | someRows =>
    intro l' hl'
    obtain ⟨l, hl, hperm⟩ := h l' hl'
    exact ⟨l, hl, l', hperm, rfl⟩

/-- A set of sequences agrees with a larger one, whatever is cut from both. -/
lemma Refines.of_subset (h : D' ⊆ D) : Refines ob c (cutAll c D') D := by
  apply Refines.of_sequence
  rintro _ ⟨l, hl, rfl⟩
  exact ⟨l, h hl, rfl⟩

/-- **A cut of a cut.** What the outer consumer reads through both it reads through the outer one. -/
theorem Refines.cut {inner : Cut} (h : Refines ob.cut (c.after inner) D' D) :
    Refines ob c D' (cutAll inner D) := by
  cases ob with
  | sequence =>
    intro l' hl'
    obtain ⟨l, hl, rfl⟩ := h l' hl'
    exact ⟨_, ⟨l, hl, rfl⟩, c.rows_after inner l⟩
  | rows =>
    intro l' hl'
    obtain ⟨l, hl, hperm⟩ := h l' hl'
    rw [c.rows_after] at hperm
    exact ⟨_, ⟨l, hl, rfl⟩, hperm⟩
  | someRows =>
    intro l' hl'
    obtain ⟨l, hl, hperm⟩ := h l' hl'
    rw [c.rows_after] at hperm
    obtain ⟨m, hm, hrows⟩ := c.exists_perm_rows_of_perm (List.Perm.refl _) hperm
    exact ⟨_, ⟨l, hl, rfl⟩, m, hm, hrows.symm⟩

/-! ### Operators that keep the order -/

/-- A step from sequences to sequences that emits one row for each row: it commutes with cuts, and
rows that arrive in another order leave in another order. -/
structure RowWise (ρ : Type*) where
  step : List ρ → List ρ → Prop
  perm : ∀ {m m' l}, m.Perm m' → step m l → ∃ l', step m' l' ∧ l.Perm l'
  cut : ∀ {c : Cut} {m l}, step (c.rows m) l → ∃ l', step m l' ∧ l = c.rows l'

/-- The sequences an operator delivers from those of its input. -/
def RowWise.deliver (R : RowWise ρ) (D : Set (List ρ)) : Set (List ρ) :=
  {l | ∃ m ∈ D, R.step m l}

/-- The operator that maps each row. -/
def RowWise.map (f : ρ → ρ) : RowWise ρ where
  step m l := l = m.map f
  perm := by
    rintro m m' _ h rfl
    exact ⟨_, rfl, h.map f⟩
  cut := by
    rintro c m _ rfl
    exact ⟨_, rfl, (c.rows_map f m).symm⟩

/-- Arranging one component of pairs arranges the pairs. -/
lemma exists_perm_of_map_snd {α β : Type*} {P : List (α × β)} {m' : List β}
    (h : m'.Perm (P.map Prod.snd)) : ∃ P' : List (α × β), P'.Perm P ∧ P'.map Prod.snd = m' := by
  have hP : List.Forall₂ (fun b (p : α × β) => p.2 = b) (P.map Prod.snd) P := by
    rw [List.forall₂_map_left_iff, List.forall₂_same]
    exact fun _ _ => rfl
  obtain ⟨P', hP', hperm⟩ := List.perm_comp_forall₂ h hP
  refine ⟨P', hperm, ?_⟩
  clear hperm h
  induction hP' with
  | nil => rfl
  | cons hp _ ih => rw [List.map_cons, hp, ih]

/-- Numbers that are not in a list. -/
lemma exists_fresh (ids : List ℕ) (n : ℕ) :
    ∃ fresh : List ℕ, fresh.length = n ∧ fresh.Nodup ∧ ids.Disjoint fresh := by
  refine ⟨List.range' (ids.sum + 1) n, List.length_range', List.nodup_range', ?_⟩
  intro i hi hfresh
  have hle := List.single_le_sum (fun x _ => Nat.zero_le x) i hi
  have := (List.mem_range'_1.mp hfresh).1
  omega

/-- The operator that attaches to each row a number no other row gets. -/
def RowWise.attachIds (attach : ℕ → ρ → ρ) : RowWise ρ where
  step m l := ∃ ids : List ℕ, ids.Nodup ∧ ids.length = m.length ∧ l = List.zipWith attach ids m
  perm := by
    rintro m m' _ h ⟨ids, hids, hlen, rfl⟩
    have hsnd : m'.Perm ((ids.zip m).map Prod.snd) := by
      rw [List.map_snd_zip hlen.ge]
      exact h.symm
    obtain ⟨P', hP', hm'⟩ := exists_perm_of_map_snd hsnd
    have hfst : (P'.map Prod.fst).Perm ids := by
      rw [← List.map_fst_zip hlen.le]
      exact hP'.map _
    refine ⟨_, ⟨P'.map Prod.fst, hfst.nodup_iff.mpr hids, ?_, rfl⟩, ?_⟩
    · rw [← hm', List.length_map, List.length_map]
    · rw [← hm', List.zipWith_map, List.zipWith_self, ← List.map_uncurry_zip_eq_zipWith]
      exact (hP'.map (Function.uncurry attach)).symm
  cut := by
    rintro c m _ ⟨ids, hids, hlen, rfl⟩
    obtain ⟨fresh, hfresh, hnodup, hdisj⟩ := exists_fresh ids (m.length - ids.length)
    rw [Cut.length_rows] at hlen
    have hle : ids.length ≤ m.length := by
      rw [hlen, ← Cut.length_rows]
      exact (c.rows_sublist m).length_le
    have htotal : (ids ++ fresh).length = m.length := by
      rw [List.length_append, hfresh]
      omega
    obtain ⟨all, hall, hrows⟩ := c.exists_perm_rows (List.sublist_append_left ids fresh).subperm
      (by rw [hlen, htotal])
    refine ⟨_, ⟨all, hall.nodup_iff.mpr ?_, hall.length_eq.trans htotal, rfl⟩, ?_⟩
    · exact List.nodup_append'.mpr ⟨hids, hnodup, hdisj⟩
    · rw [c.rows_zipWith, hrows]

/-- An operator that emits a row for each row carries every comparison. -/
theorem Refines.rowwise (R : RowWise ρ) (h : Refines ob c D' D) :
    Refines ob c (R.deliver D') (R.deliver D) := by
  cases ob with
  | sequence =>
    rintro l' ⟨m', hm', hstep⟩
    obtain ⟨m, hm, rfl⟩ := h m' hm'
    obtain ⟨l, hl, rfl⟩ := R.cut hstep
    exact ⟨l, ⟨m, hm, hl⟩, rfl⟩
  | rows =>
    rintro l' ⟨m', hm', hstep⟩
    obtain ⟨m, hm, hperm⟩ := h m' hm'
    obtain ⟨k, hk, hlk⟩ := R.perm hperm hstep
    obtain ⟨l, hl, rfl⟩ := R.cut hk
    exact ⟨l, ⟨m, hm, hl⟩, hlk⟩
  | someRows =>
    rintro l' ⟨m', hm', hstep⟩
    obtain ⟨m, hm, n, hperm, rfl⟩ := h m' hm'
    obtain ⟨k, hk, rfl⟩ := R.cut hstep
    obtain ⟨l, hl, hkl⟩ := R.perm hperm hk
    exact ⟨l, ⟨m, hm, hl⟩, k, hkl, rfl⟩

/-- **An operator that reads and emits rows in order**, under a cut of its output: the cut reads the
order of the input unless any rows will do. -/
theorem Refines.inOrder {f : List ρ → List ρ} (hf : ∀ m m', m.Perm m' → (f m).Perm (f m'))
    (h : Refines (ob.through c) .all D' D) : Refines ob c (cutAll c (f '' D')) (f '' D) := by
  have hsequence (h : Refines .sequence .all D' D) : Refines ob c (cutAll c (f '' D')) (f '' D) := by
    apply Refines.of_subset
    rintro _ ⟨m', hm', rfl⟩
    obtain ⟨m, hm, hmm⟩ := h m' hm'
    exact ⟨m, hm, by rw [hmm, Cut.rows_all]⟩
  cases ob with
  | sequence => exact hsequence h
  | rows =>
    by_cases hc : c = .all
    · subst hc
      rw [cutAll_all]
      rintro _ ⟨m', hm', rfl⟩
      obtain ⟨m, hm, hperm⟩ := h m' hm'
      exact ⟨f m, ⟨m, hm, rfl⟩, hf _ _ hperm⟩
    · simp only [Observed.through, if_neg hc] at h
      exact hsequence h
  | someRows =>
    rintro _ ⟨_, ⟨m', hm', rfl⟩, rfl⟩
    obtain ⟨m, hm, hperm⟩ := h m' hm'
    exact ⟨f m, ⟨m, hm, rfl⟩, f m', hf _ _ hperm, rfl⟩

/-! ### Operators that forget the order -/

/-- What an operator delivers that reads the rows of its inputs in any order and emits its rows in
any order; it raises where `f` has no result. -/
def scramble (f : List (List ρ) → Option (List ρ)) (Ds : List (Set (List ρ))) : Set (List ρ) :=
  {l | ∃ inputs, List.Forall₂ (fun k D => ∃ m ∈ D, k.Perm m) inputs Ds ∧
    ∃ out, f inputs = some out ∧ l.Perm out}

/-- Such an operator does not see the order of its inputs. -/
theorem scramble_subset {f : List (List ρ) → Option (List ρ)} {Ds' Ds : List (Set (List ρ))}
    (h : List.Forall₂ (Refines .rows .all) Ds' Ds) : scramble f Ds' ⊆ scramble f Ds := by
  rintro l ⟨inputs, hinputs, hout⟩
  refine ⟨inputs, ?_, hout⟩
  clear hout
  induction h generalizing inputs with
  | nil => exact hinputs
  | cons hD _ ih =>
    obtain ⟨k, rest, ⟨m', hm', hk⟩, hrest, rfl⟩ := List.forall₂_cons_right_iff.mp hinputs
    obtain ⟨m, hm, hperm⟩ := hD m' hm'
    exact .cons ⟨m, hm, hk.trans hperm⟩ (ih rest hrest)

/-- What such an operator delivers from one input. -/
lemma mem_scramble_one {f : List (List ρ) → Option (List ρ)} {l : List ρ} :
    l ∈ scramble f [D] ↔ ∃ m ∈ D, ∃ k, k.Perm m ∧ ∃ out, f [k] = some out ∧ l.Perm out := by
  constructor
  · rintro ⟨inputs, hinputs, hout⟩
    obtain ⟨k, rest, ⟨m, hm, hk⟩, hrest, rfl⟩ := List.forall₂_cons_right_iff.mp hinputs
    obtain rfl := List.forall₂_nil_right_iff.mp hrest
    exact ⟨m, hm, k, hk, hout⟩
  · rintro ⟨m, hm, k, hk, hout⟩
    exact ⟨[k], .cons ⟨m, hm, hk⟩ .nil, hout⟩

/-- **An operator whose result for each row depends on the rows that arrived before it**: computing
it for the rows a cut keeps is as good as cutting its result. -/
theorem Refines.arrival {f : List (List ρ) → Option (List ρ)} {g : List ρ → List ρ}
    (hf : ∀ k, f [k] = some (g k)) (hlen : ∀ k, (g k).length = k.length)
    (hpre : ∀ k r, ∃ t, g (k ++ r) = g k ++ t) (h : Refines .someRows c D' D) :
    Refines ob c (scramble f [D']) (scramble f [D]) := by
  apply Refines.of_sequence
  intro l' hl'
  obtain ⟨_, hm', k, hk, _, hfk, hl'⟩ := mem_scramble_one.mp hl'
  obtain rfl := Option.some.inj ((hf k).symm.trans hfk)
  obtain ⟨m, hm, n, hn, rfl⟩ := h _ hm'
  -- The rows kept arrive first, in the order in which they were read.
  obtain ⟨r, hr⟩ := (c.rows_sublist n).exists_perm_append
  have harrived : (k ++ r).Perm m := ((hk.append_right r).trans hr.symm).trans hn
  obtain ⟨t, ht⟩ := hpre k r
  have hsub : l'.Subperm (g (k ++ r)) := by
    rw [ht]
    exact hl'.subperm.trans (List.sublist_append_left _ _).subperm
  have hsize : l'.length = c.size (g (k ++ r)).length := by
    rw [hl'.length_eq, hlen, hlen, hk.length_eq, Cut.length_rows, harrived.length_eq, hn.length_eq]
  obtain ⟨l, hl, hrows⟩ := c.exists_perm_rows hsub hsize
  exact ⟨l, mem_scramble_one.mpr ⟨m, hm, k ++ r, harrived, _, hf _, hl⟩, hrows.symm⟩

/-! ### Several inputs -/

/-- The rows of all inputs, in any order. -/
def appendAll (Ds : List (Set (List ρ))) : Set (List ρ) :=
  scramble (fun inputs => some inputs.flatten) Ds

/-- Inputs of which each kept as many rows as a bound have, up to the bound, as many in total. -/
lemma min_length_flatten {bound : ℕ} {ks ms : List (List ρ)}
    (h : List.Forall₂ (fun k m : List ρ => k.length = min bound m.length) ks ms) :
    min bound ks.flatten.length = min bound ms.flatten.length := by
  induction h with
  | nil => rfl
  | cons hk _ ih =>
    simp only [List.flatten_cons, List.length_append] at ih ⊢
    omega

/-- **Each input may be cut to as many rows as a cut of all of them reaches.** -/
theorem Refines.appendAll {skip keep : ℕ} {Ds' Ds : List (Set (List ρ))}
    (h : List.Forall₂ (Refines .someRows ⟨0, some (skip + keep)⟩) Ds' Ds) :
    Refines ob ⟨skip, some keep⟩ (cutAll ⟨skip, some keep⟩ (appendAll Ds')) (appendAll Ds) := by
  apply Refines.of_sequence
  rintro _ ⟨l', ⟨inputs', hinputs', _, hflat, hl'⟩, rfl⟩
  obtain rfl := Option.some.inj hflat
  clear hflat
  -- Each input is some of the rows of an input of the other side.
  have hinputs : ∃ inputs, List.Forall₂ (fun k D => ∃ m ∈ D, k.Perm m) inputs Ds ∧
      List.Forall₂ (fun k m : List ρ => k.Subperm m ∧ k.length = min (skip + keep) m.length)
        inputs' inputs := by
    clear hl'
    induction h generalizing inputs' with
    | nil =>
      obtain rfl := List.forall₂_nil_right_iff.mp hinputs'
      exact ⟨[], .nil, .nil⟩
    | cons hD _ ih =>
      obtain ⟨k, rest, ⟨m', hm', hk⟩, hrest, rfl⟩ := List.forall₂_cons_right_iff.mp hinputs'
      obtain ⟨inputs, hinputs, hsub⟩ := ih rest hrest
      obtain ⟨m, hm, n, hn, rfl⟩ := hD m' hm'
      refine ⟨m :: inputs, .cons ⟨m, hm, List.Perm.refl m⟩ hinputs, .cons ⟨?_, ?_⟩ hsub⟩
      · exact hk.subperm.trans ((Cut.rows_sublist _ n).subperm.trans hn.subperm)
      · rw [hk.length_eq, Cut.length_rows, hn.length_eq, Cut.size, Nat.sub_zero]
  obtain ⟨inputs, hinputs, hsub⟩ := hinputs
  have hflatten : inputs'.flatten.Subperm inputs.flatten := by
    clear hinputs hinputs' hl'
    induction hsub with
    | nil => exact List.Subperm.refl _
    | cons hk _ ih => exact hk.1.append ih
  have htotal := min_length_flatten (hsub.imp fun _ _ hk => hk.2)
  have hkept : (Cut.rows ⟨skip, some keep⟩ l').Subperm inputs.flatten :=
    ((Cut.rows_sublist _ l').subperm.trans hl'.subperm).trans hflatten
  have hsize : (Cut.rows ⟨skip, some keep⟩ l').length =
      Cut.size ⟨skip, some keep⟩ inputs.flatten.length := by
    rw [Cut.length_rows, hl'.length_eq]
    simp only [Cut.size]
    omega
  obtain ⟨m, hm, hrows⟩ := Cut.exists_perm_rows _ hkept hsize
  exact ⟨m, ⟨inputs, hinputs, _, rfl, hm⟩, hrows.symm⟩

/-- The sorted arrangements of the sequences of a set. -/
def sorted (le : ρ → ρ → Prop) (D : Set (List ρ)) : Set (List ρ) :=
  {l | l.Pairwise le ∧ ∃ m ∈ D, l.Perm m}

/-- Sorting does not see the order of its input. -/
theorem sorted_subset {le : ρ → ρ → Prop} (h : Refines .rows .all D' D) :
    sorted le D' ⊆ sorted le D := by
  rintro l ⟨hle, m', hm', hperm⟩
  obtain ⟨m, hm, hperm'⟩ := h m' hm'
  exact ⟨hle, m, hm, hperm.trans hperm'⟩

/-- Rows that are not sorted are, up to their order, rows that are. -/
theorem Refines.unsorted {le : ρ → ρ → Prop} [DecidableRel le] [Std.Total le] [IsTrans ρ le]
    (h : Refines .rows .all D' D) : Refines .rows .all D' (sorted le D) := by
  intro l' hl'
  obtain ⟨l, hl, hperm⟩ := h l' hl'
  have hsort := List.perm_insertionSort le l
  exact ⟨l.insertionSort le, ⟨List.pairwise_insertionSort le l, l, hl, hsort⟩, hperm.trans hsort.symm⟩

end Verax.Lib.Deliveries
