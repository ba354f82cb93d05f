import Mathlib.Data.List.Perm.Basic
import Verax.Lib.Outcome
import Verax.Ranking.Rows

/-!
# Ranked rows

What can be said of the rows of a window: the numbers they hold, how they carry over to rows that
agree, and which rows a bound or a filter on partition keys leaves out.

* `Ranked.of_agrees`: rows ranked over rows that agree with others.
* `Ranked.unbound`: a bound leaves out rows of numbers past it, each with as many rows above it.
* `Ranked.push`: a filter on partition keys below a window leaves out whole partitions.
-/

namespace Verax.Ranking

open Lib Lib.Rankings Filters

/-! ### Lists -/

section lists

variable {α β : Type*} {R : α → β → Prop}

/-- Items that correspond, in another order. -/
lemma exists_perm_of_forall₂ {l : List α} {l' k' : List β} (h : List.Forall₂ R l l')
    (hperm : k'.Perm l') : ∃ k, k.Perm l ∧ List.Forall₂ R k k' := by
  obtain ⟨k, hk, hkl⟩ := List.perm_comp_forall₂ hperm h.flip
  exact ⟨k, hkl, hk.flip⟩

/-- What holds of the items before and after one another carries over. -/
lemma pairwise_of_forall₂ {P : α → α → Prop} {P' : β → β → Prop}
    (himp : ∀ a a' b b', R a a' → R b b' → P' a' b' → P a b) {l : List α} {l' : List β}
    (h : List.Forall₂ R l l') (hpairwise : l'.Pairwise P') : l.Pairwise P := by
  induction h with
  | nil => exact .nil
  | cons ha hrest ih =>
    obtain ⟨hhead, htail⟩ := List.pairwise_cons.mp hpairwise
    refine .cons (fun b hb => ?_) (ih htail)
    obtain ⟨b', hb', hR⟩ := Outcome.exists_of_forall₂ hrest hb
    exact himp _ _ _ _ ha hR (hhead b' hb')

end lists

/-! ### Numbers -/

section numbers

variable {number : RankFunction → ℕ}

lemma writeNumbers_of_notMem {c : Column} : ∀ {functions : List (RankFunction × Column)} {row : Row},
    c ∉ functions.map Prod.snd → writeNumbers number functions row c = row c
  | [], _, _ => rfl
  | f :: functions, row, hc => by
    rw [List.map_cons, List.mem_cons, not_or] at hc
    rw [writeNumbers, writeNumbers_of_notMem hc.2, Function.update_of_ne hc.1]

lemma writeNumbers_of_mem {f : RankFunction × Column} :
    ∀ {functions : List (RankFunction × Column)} {row : Row}, f ∈ functions →
      (functions.map Prod.snd).Nodup → writeNumbers number functions row f.2 = rankValue (number f.1)
  | g :: functions, row, hf, hnodup => by
    rw [List.map_cons, List.nodup_cons] at hnodup
    rw [writeNumbers]
    rcases List.mem_cons.mp hf with rfl | hf
    · rw [writeNumbers_of_notMem hnodup.1, Function.update_self]
    · exact writeNumbers_of_mem hf hnodup.2

end numbers

/-! ### Ranked rows -/

variable {catalog : Catalog} {run : Run catalog}

/-- The parameters of a window are sound: the functions write different columns, which neither the
partition keys nor the order keys are. -/
structure WindowKey.WellFormed (window : WindowKey) : Prop where
  nodup : (window.functions.map Prod.snd).Nodup
  partitionKeys : ∀ c ∈ window.partitionKeys, c ∉ window.functions.map Prod.snd
  orderKeys : ∀ key ∈ window.orderKeys, key.column ∉ window.functions.map Prod.snd

/-- The rows of a window, as far as they are within a bound. -/
def WindowKey.Ranks (run : Run catalog) (window : WindowKey) (bound : Option (RankFunction × ℕ+))
    (rows out : List Row) : Prop :=
  run.Ranked window.partitionKeys window.orderKeys window.functions bound rows out

namespace WindowKey

variable {window : WindowKey} {bound : Option (RankFunction × ℕ+)} {l out : List Row}

lemma Ranks.perm (h : window.Ranks run bound l out) {out' : List Row} (hperm : out'.Perm out) :
    window.Ranks run bound l out' := by
  obtain ⟨arranged, harranged, hpartitions, hout⟩ := h
  exact ⟨arranged, harranged, hpartitions, hperm.trans hout⟩

/-- What a row of a window is: a row of the input with its numbers, which are within the bound. -/
lemma Ranks.exists_of_mem (h : window.Ranks run bound l out) {r : Row} (hr : r ∈ out) :
    ∃ x : List Row × Row, x.2 ∈ l ∧ within (run.sortLe window.orderKeys) bound x = true ∧
      r = numberRow (run.sortLe window.orderKeys) window.functions x := by
  obtain ⟨arranged, harranged, -, hout⟩ := h
  obtain ⟨x, hx, rfl⟩ := List.mem_map.mp (hout.mem_iff.mp hr)
  obtain ⟨hx, hwithin⟩ := List.mem_filter.mp hx
  exact ⟨x, harranged.mem_iff.mp (mem_of_mem_withEarlier hx), hwithin, rfl⟩

section wellFormed

variable (hwindow : window.WellFormed)
include hwindow

/-- The rows keep their order. -/
lemma sortLe_numberRow (x y : List Row × Row) (le : Row → Row → Bool) :
    run.sortLe window.orderKeys (numberRow le window.functions x)
      (numberRow le window.functions y) = run.sortLe window.orderKeys x.2 y.2 :=
  run.sortLe_congr fun key hkey => ⟨writeNumbers_of_notMem (hwindow.orderKeys key hkey),
    writeNumbers_of_notMem (hwindow.orderKeys key hkey)⟩

/-- **A bound leaves out rows of numbers past it, which have as many rows above them.** -/
theorem Ranks.unbound {fn : RankFunction} {limit : ℕ+}
    (h : window.Ranks run (some (fn, limit)) l out) :
    ∃ beyond, window.Ranks run none l (out ++ beyond) ∧ ∀ r ∈ beyond,
      ((limit : ℕ) ≤ out.countP fun y => run.sortLe window.orderKeys y r) ∧
        ∀ c, (fn, c) ∈ window.functions → ∃ n, (limit : ℕ) < n ∧ r c = rankValue n := by
  obtain ⟨arranged, harranged, hpartitions, hout⟩ := h
  set numbered := withEarlier (samePartition window.partitionKeys) [] arranged with hnumbered
  have hwithin : ∀ x, within (run.sortLe window.orderKeys) (some (fn, limit)) x =
      decide (fn.value (run.sortLe window.orderKeys) x.1 x.2 ≤ (limit : ℕ)) := fun _ => rfl
  refine ⟨(numbered.filter fun x => !within (run.sortLe window.orderKeys) (some (fn, limit)) x).map
    (numberRow (run.sortLe window.orderKeys) window.functions), ?_, ?_⟩
  · refine ⟨arranged, harranged, hpartitions, (hout.append_right _).trans ?_⟩
    have hall : numbered.filter (within (run.sortLe window.orderKeys) none) = numbered :=
      List.filter_eq_self.mpr fun _ _ => rfl
    rw [← List.map_append, hall]
    exact (List.filter_append_perm _ _).map _
  · intro r hr
    obtain ⟨x, hx, rfl⟩ := List.mem_map.mp hr
    obtain ⟨hx, hbeyond⟩ := List.mem_filter.mp hx
    have hlt : (limit : ℕ) < fn.value (run.sortLe window.orderKeys) x.1 x.2 := by
      simpa [hwithin] using hbeyond
    refine ⟨?_, fun c hc => ⟨_, hlt, writeNumbers_of_mem hc hwindow.nodup⟩⟩
    have hcount := le_countP_of_lt_value (partitions window.partitionKeys) hpartitions fn hx hlt
    rw [hout.countP_eq, List.countP_map]
    refine hcount.trans (le_of_eq ?_)
    refine List.countP_congr fun y _ => ?_
    rw [Function.comp_apply, sortLe_numberRow hwindow]

/-- A row's number is within the bound. -/
lemma Ranks.number (h : window.Ranks run bound l out) {r : Row} (hr : r ∈ out)
    {f : RankFunction × Column} (hf : f ∈ window.functions) :
    ∃ n, 1 ≤ n ∧ r f.2 = rankValue n ∧ ∀ limit, bound = some (f.1, limit) → n ≤ (limit : ℕ) := by
  obtain ⟨x, -, hwithin, rfl⟩ := h.exists_of_mem hr
  refine ⟨_, f.1.one_le_value _ x.1 x.2, writeNumbers_of_mem hf hwindow.nodup, fun limit hlimit => ?_⟩
  rw [hlimit] at hwithin
  exact of_decide_eq_true hwithin

/-- Without order keys every row of a partition ranks first. -/
lemma Ranks.constant (h : window.Ranks run bound l out) (hkeys : window.orderKeys = []) {r : Row}
    (hr : r ∈ out) {f : RankFunction × Column} (hf : f ∈ window.functions) (hfn : f.1 ≠ .rowNumber) :
    r f.2 = rankValue 1 := by
  obtain ⟨x, -, -, rfl⟩ := h.exists_of_mem hr
  have hvalue : f.1.value (run.sortLe window.orderKeys) x.1 x.2 = 1 := by
    rw [hkeys]
    exact RankFunction.value_of_peers hfn (fun _ _ => rfl) x.1 x.2
  rw [numberRow, writeNumbers_of_mem hf hwindow.nodup, hvalue]

/-- The rows pass the conditions on partition keys that the input's rows pass. -/
lemma Ranks.accepts (h : window.Ranks run bound l out) {engine : Engine} {p : Expr}
    (hp : p.columns ⊆ window.partitionKeys) (hl : ∀ r ∈ l, engine.accepts r p) {r : Row}
    (hr : r ∈ out) : engine.accepts r p := by
  obtain ⟨x, hx, -, rfl⟩ := h.exists_of_mem hr
  have hsame : ∀ c ∈ p.columns,
      numberRow (run.sortLe window.orderKeys) window.functions x c = x.2 c := fun c hc =>
    writeNumbers_of_notMem (hwindow.partitionKeys c (hp hc))
  exact (accepts_congr engine hsame).mpr (hl x.2 hx)

/-- **A filter on partition keys below a window leaves out rows that fail it.** -/
theorem Ranks.push {ps : List Expr} {rows : List Row}
    (hps : ∀ p ∈ ps, catalog.containsNonDeterministic p = false ∧ p.columns ⊆ window.partitionKeys)
    (hfilter : run.Filtered ps rows l) (h : window.Ranks run none l out) :
    ∃ dropped, window.Ranks run none rows (out ++ dropped) ∧
      ∀ r ∈ dropped, ∀ engine ∈ run.engines, ¬∀ p ∈ ps, engine.accepts r p := by
  obtain ⟨arranged, harranged, hpartitions, hout⟩ := h
  obtain ⟨rest, hrows, haccepts, hrejects⟩ := hfilter.exists_dropped fun p hp => (hps p hp).1
  obtain ⟨behind, hbehind, hbehindPartitions⟩ := exists_arranged
    (samePartition window.partitionKeys) (run.sortLe_total window.orderKeys)
    (run.sortLe_trans window.orderKeys) rest
  have hsplit := @withEarlier_append _ (samePartition window.partitionKeys) [] arranged behind
  have hall : ∀ numbered : List (List Row × Row),
      numbered.filter (within (run.sortLe window.orderKeys) none) = numbered :=
    fun _ => List.filter_eq_self.mpr fun _ _ => rfl
  refine ⟨(withEarlier (samePartition window.partitionKeys) ([] ++ arranged) behind).map
    (numberRow (run.sortLe window.orderKeys) window.functions),
    ⟨arranged ++ behind, (harranged.append hbehind).trans hrows.symm, ?_, ?_⟩, ?_⟩
  · refine hpartitions.append hbehindPartitions fun r hr s hs => ?_
    by_contra hsame
    rw [Bool.not_eq_false, samePartition_eq_true] at hsame
    obtain ⟨engine, hengine⟩ := run.nonempty
    refine hrejects s (hbehind.mem_iff.mp hs) engine hengine fun p hp => ?_
    have := haccepts r (harranged.mem_iff.mp hr) engine hengine p hp
    rwa [accepts_congr engine fun c hc => hsame c ((hps p hp).2 hc)] at this
  · rw [hall, hsplit, List.map_append]
    rw [hall] at hout
    exact hout.append_right _
  · intro r hr engine hengine hr'
    obtain ⟨x, hx, rfl⟩ := List.mem_map.mp hr
    refine hrejects x.2 (hbehind.mem_iff.mp (mem_of_mem_withEarlier hx)) engine hengine fun p hp => ?_
    have hsame : ∀ c ∈ p.columns,
        numberRow (run.sortLe window.orderKeys) window.functions x c = x.2 c := fun c hc =>
      writeNumbers_of_notMem (hwindow.partitionKeys c ((hps p hp).2 hc))
    exact (accepts_congr engine hsame).mp (hr' p hp)

end wellFormed

end WindowKey

/-! ### Rows that agree -/

/-- Keys that part and order rows as others part and order the rows that agree with them. -/
def KeysAgree (run : Run catalog) (σ : Substitutions) (columns : Set Column) (window : WindowKey)
    (partitionKeys : List Column) (orderKeys : List SortKey) : Prop :=
  ∀ r r' s s', Agrees σ columns r r' → Agrees σ columns s s' →
    samePartition window.partitionKeys r s = samePartition partitionKeys r' s' ∧
      (samePartition window.partitionKeys r s = true →
        run.sortLe window.orderKeys r s = run.sortLe orderKeys r' s')

/-- The columns of which a window keeps the values: those of its input that it does not write, and
those of its functions that the other window writes too. -/
def Kept (σ : Substitutions) (columns : Set Column) (window : WindowKey)
    (functions : List (RankFunction × Column)) (c : Column) : Prop :=
  (c ∈ columns ∧ c ∉ window.functions.map Prod.snd ∧
    ∀ d, σ.replacement c = .column d → d ∉ functions.map Prod.snd) ∨
  (σ.replacement c = .column c ∧ ∃ fn, (fn, c) ∈ window.functions ∧ (fn, c) ∈ functions)

/-- **Rows ranked over rows that agree with others agree with the others, ranked.** -/
theorem Ranked.of_agrees {σ : Substitutions} {columns : Set Column} {window : WindowKey}
    {partitionKeys : List Column} {orderKeys : List SortKey}
    (hkeys : KeysAgree run σ columns window partitionKeys orderKeys)
    (hnodup : (window.functions.map Prod.snd).Nodup) {functions : List (RankFunction × Column)}
    (hnodup' : (functions.map Prod.snd).Nodup) {bound : Option (RankFunction × ℕ+)}
    {l l' out' : List Row} (hl : List.Forall₂ (Agrees σ columns) l l')
    (h : run.Ranked partitionKeys orderKeys functions bound l' out') :
    ∃ out, window.Ranks run bound l out ∧
      List.Forall₂ (Agrees σ {c | Kept σ columns window functions c}) out out' := by
  obtain ⟨arranged', harranged', hpartitions', hout'⟩ := h
  obtain ⟨arranged, harranged, hagree⟩ := exists_perm_of_forall₂ hl harranged'
  have hpartitions : Arranged (samePartition window.partitionKeys)
      (run.sortLe window.orderKeys) arranged := by
    refine pairwise_of_forall₂ (fun r r' s s' hr hs hle hsame => ?_) hagree hpartitions'
    obtain ⟨hsame', hle'⟩ := hkeys r r' s s' hr hs
    rw [hle' hsame]
    exact hle (hsame' ▸ hsame)
  have hnumbered := forall₂_withEarlier (fun r r' s s' hr hs => (hkeys r r' s s' hr hs).1)
    (List.Forall₂.nil (R := Agrees σ columns)) hagree
  -- The rows before a row are of its partition, so that they compare alike.
  have hvalue : ∀ (fn : RankFunction) (x : List Row × Row) (x' : List Row × Row),
      List.Forall₂ (fun s s' => samePartition window.partitionKeys x.2 s = true ∧
        Agrees σ columns s s') x.1 x'.1 → Agrees σ columns x.2 x'.2 →
      fn.value (run.sortLe window.orderKeys) x.1 x.2 =
        fn.value (run.sortLe orderKeys) x'.1 x'.2 := by
    intro fn x x' hearlier hx
    have hequiv := partitions window.partitionKeys
    refine fn.value_congr (fun s s' t t' hs ht => ?_) hearlier ⟨hequiv.refl _, hx⟩
    exact (hkeys s s' t t' hs.2 ht.2).2 (hequiv.trans _ _ _ (hequiv.symm _ _ hs.1) ht.1)
  have hrow : ∀ x x' : List Row × Row,
      List.Forall₂ (fun s s' => samePartition window.partitionKeys x.2 s = true ∧
        Agrees σ columns s s') x.1 x'.1 ∧ Agrees σ columns x.2 x'.2 →
      Agrees σ {c | Kept σ columns window functions c}
        (numberRow (run.sortLe window.orderKeys) window.functions x)
        (numberRow (run.sortLe orderKeys) functions x') := by
    rintro x x' ⟨hearlier, hx⟩ c (⟨hc, hwritten, hreplaced⟩ | ⟨hreplacement, fn, hmem, hmem'⟩)
    · have hinput : numberRow (run.sortLe window.orderKeys) window.functions x c = x.2 c :=
        writeNumbers_of_notMem hwritten
      rw [hinput, ← hx c hc, Substitutions.value, Substitutions.value]
      cases hreplacement : σ.replacement c with
      | column d => exact writeNumbers_of_notMem (hreplaced d hreplacement)
      | literal value type => rfl
    · rw [σ.value_column hreplacement, numberRow, numberRow, writeNumbers_of_mem hmem hnodup,
        writeNumbers_of_mem hmem' hnodup', hvalue fn x x' hearlier hx]
  have hwithin := List.rel_filter (p := within (run.sortLe window.orderKeys) bound)
    (q := within (run.sortLe orderKeys) bound)
    (fun x x' hx => by simp only [within, hvalue _ x x' hx.1 hx.2]) hnumbered
  obtain ⟨out, hout, houtAgree⟩ := exists_perm_of_forall₂ (List.rel_map hrow hwithin) hout'
  exact ⟨out, ⟨arranged, harranged, hpartitions, hout⟩, houtAgree⟩

end Verax.Ranking
