import Verax.JoinFilters.JoinFilterRewriter
import Verax.Lib.Dictionary

/-!
# What a join reads of its inputs

The inputs of a cross join and what the rewriter keeps true of the projections over them: every
column of a projection holds what the rewriter asked for.

* `Input`, `Inputs`: the inputs of a join; `Input.ofProject`: a projection is one.
* `Placed`: lambdas are arguments; `isDatum_evaluate`: what is no lambda comes to no function.
* `Supplies`: a column of a projection holds an expression.
* `PrecomputeProjections.Inv`, `Inv.toColumn_spec`: what holds of a projection, and what adding a
  column does.
-/

namespace Verax.JoinFilters

open QueryGraph Lib Lib.Dictionary

variable {V : Type}

/-! ### Inputs -/

/-- An input of a join: its columns and rows, and what it computes if it is a projection. A column
that is passed on is the same column, so what a projection computes of the columns below it is
computed of its own.
Source: `Node.h` `Project`. -/
structure Input (engine : Engine V) where
  columns : List Column
  computed : List (Expr V × Column)
  rows : Multiset (Row V)
  outputs : ∀ p ∈ computed, p.2 ∈ columns
  computes : ∀ p ∈ computed, p.1.containsNonDeterministic = false →
    (∀ c ∈ p.1.columns, c ∈ columns) → ∀ row ∈ rows,
      engine.evaluate true row p.1 = {.value (.value (row p.2))}

/-- What a projection gives is an input: it passes on the columns it shares with its own input, and
has a row for each row there.
Source: `Node.h` `Project`. -/
def Input.ofProject {engine : Engine V} {registry : Registry} (hengine : engine.Lawful registry)
    (inputColumns : List Column) (exprs : List (Expr V × Column)) (rows : Multiset (Row V))
    (hwell : ∀ p ∈ exprs, p.1.WellFormed registry)
    (hreads : ∀ p ∈ exprs, ∀ c ∈ p.1.columns, c ∈ inputColumns)
    (hpassed : ∀ p ∈ exprs, p.2 ∈ inputColumns → p.1 = .column p.2)
    (hrows : ∀ row ∈ rows, ∃ inputRow, ∀ p ∈ exprs,
      .value (.value (row p.2)) ∈ engine.evaluate true inputRow p.1) : Input engine where
  columns := exprs.map Prod.snd
  computed := exprs
  rows := rows
  outputs _ hp := List.mem_map_of_mem hp
  computes p hp hdet hcolumns row hrow := by
    obtain ⟨inputRow, hinputRow⟩ := hrows row hrow
    have hagree : ∀ c ∈ p.1.columns, row c = inputRow c := by
      intro c hc
      obtain ⟨q, hq, rfl⟩ := List.mem_map.mp (hcolumns c hc)
      have hvalue := hinputRow q hq
      rw [hpassed q hq (hreads p hp q.2 hc)] at hvalue
      injection Set.mem_singleton_iff.mp hvalue with hvalue
      injection hvalue
    obtain ⟨o, ho, -⟩ := Engine.exists_evaluate_eq hengine true inputRow (hwell p hp) hdet
    have hvalue := hinputRow p hp
    rw [ho] at hvalue
    rw [Engine.evaluate_congr hagree, ho, Set.mem_singleton_iff.mp hvalue]

/-- The inputs of a join have no column in common, and a new column is none of theirs.
Source: `Node.h` `Node`, `QueryGraph.h` `Column::create`. -/
structure Inputs (engine : Engine V) where
  left : Input engine
  right : Input engine
  nextColumn : ℕ
  disjoint : ∀ c ∈ left.columns, c ∉ right.columns
  fresh : ∀ c, c ∈ left.columns ∨ c ∈ right.columns → c.id < nextColumn

/-- The row for a pair of rows, given the columns of the left one. -/
def pairRow (leftColumns : List Column) (l r : Row V) : Row V := fun c =>
  if c ∈ leftColumns then l c else r c

/-! ### Where lambdas stand -/

mutual

/-- Lambdas are arguments of calls that are no special forms, and IF, SWITCH and COALESCE have an
argument. -/
def Placed : Expr V → Prop
  | .column _ => True
  | .literal _ => True
  | .call name _ args =>
      if name ∈ specialFormCallNames then
        PlacedAll args ∧ (name = kIf ∨ name = kSwitch ∨ name = kCoalesce → args ≠ [])
      else PlacedArgs args
  | .field base _ => Placed base
  | .lambda _ _ => False

/-- No expression is a lambda. -/
def PlacedAll : List (Expr V) → Prop
  | [] => True
  | e :: es => Placed e ∧ PlacedAll es

/-- Arguments, which may be lambdas. -/
def PlacedArgs : List (Expr V) → Prop
  | [] => True
  | .lambda _ _ :: es => PlacedArgs es
  | e :: es => Placed e ∧ PlacedArgs es

end

lemma PlacedAll.args : ∀ {es : List (Expr V)}, PlacedAll es → PlacedArgs es
  | [], _ => trivial
  | .lambda _ _ :: _, h => h.2.args
  | .column _ :: _, h | .literal _ :: _, h | .call _ _ _ :: _, h | .field _ _ :: _, h =>
      ⟨h.1, h.2.args⟩

/-- An outcome that is no function. -/
def IsDatum (o : Outcome (Argument V)) : Prop := ∀ a, o = .value a → ∃ v, a = .value v

section IsDatum

variable {engine : Engine V}

lemma isDatum_value (v : Option V) : IsDatum (.value (.value v)) := fun _ h => by
  cases h
  exact ⟨v, rfl⟩

lemma isDatum_error : IsDatum (.error : Outcome (Argument V)) := fun _ h => by cases h

lemma isDatum_connective (masks decides : Bool) (combine : List Truth → Truth)
    (operands : List (Outcome (Argument V))) :
    IsDatum (engine.connective masks decides combine operands) := by
  rw [Engine.connective]
  split
  · exact isDatum_error
  · exact isDatum_value _

lemma isDatum_tryOf {args : List (Set (Outcome (Argument V)))}
    (h : ∀ s ∈ args, ∀ o ∈ s, IsDatum o) : ∀ o ∈ Engine.tryOf args, IsDatum o := by
  cases args with
  | nil =>
      rintro _ rfl
      exact isDatum_value none
  | cons arg rest =>
      rintro _ (⟨-, rfl⟩ | ⟨a, ha, rfl⟩)
      · exact isDatum_value none
      · exact h arg List.mem_cons_self _ ha

lemma isDatum_switchOf : ∀ {args : List (Set (Outcome (Argument V)))},
    (∀ s ∈ args, ∀ o ∈ s, IsDatum o) → ∀ o ∈ engine.switchOf args, IsDatum o
  | [], _, o, ho => by
      cases ho
      exact isDatum_value none
  | [s], h, o, ho => h s List.mem_cons_self o ho
  | condition :: selected :: rest, h, o, ho => by
      rcases ho with ⟨-, rfl⟩ | ⟨a, -, ho⟩
      · exact isDatum_error
      · split at ho
        · exact h selected (by simp) o ho
        · exact isDatum_switchOf (fun s hs => h s (by simp [hs])) o ho

lemma isDatum_coalesceOf : ∀ {args : List (Set (Outcome (Argument V)))},
    (∀ s ∈ args, ∀ o ∈ s, IsDatum o) → ∀ o ∈ Engine.coalesceOf args, IsDatum o
  | [], _, o, ho => by
      cases ho
      exact isDatum_value none
  | arg :: rest, h, o, ho => by
      rcases ho with ⟨-, rfl⟩ | ⟨a, ha, ho⟩
      · exact isDatum_error
      · split at ho
        · rw [ho]
          exact h arg List.mem_cons_self _ ha
        · exact isDatum_coalesceOf (fun s hs => h s (by simp [hs])) o ho

mutual

/-- What is no lambda comes to no function. -/
lemma isDatum_evaluate {masks : Bool} {row : Row V} : ∀ {e : Expr V}, Placed e →
    ∀ o ∈ engine.evaluate masks row e, IsDatum o
  | .column c, _, o, ho => by
      cases ho
      exact isDatum_value _
  | .literal value, _, o, ho => by
      cases ho
      exact isDatum_value _
  | .call name functions args, h, o, ho => by
      have hspecial (hname : name ∈ specialFormCallNames) : PlacedAll args := by
        rw [Placed, if_pos hname] at h
        exact h.1
      rw [Engine.evaluate] at ho
      split at ho
      · obtain ⟨os, -, rfl⟩ := ho
        exact isDatum_connective _ _ _ os
      split at ho
      · obtain ⟨os, -, rfl⟩ := ho
        exact isDatum_connective _ _ _ os
      split at ho
      · next hname =>
        exact isDatum_tryOf (isDatum_evaluateAll (hspecial (by
          simp [hname, kTry, specialFormCallNames]))) o ho
      split at ho
      · next hname =>
        exact isDatum_switchOf (isDatum_evaluateFirst (hspecial (by
          rcases hname with rfl | rfl <;> simp [kIf, kSwitch, specialFormCallNames]))) o ho
      split at ho
      · next hname =>
        exact isDatum_coalesceOf (isDatum_evaluateFirst (hspecial (by
          simp [hname, kCoalesce, specialFormCallNames]))) o ho
      · obtain ⟨os, -, ho⟩ := ho
        split at ho
        · rw [ho]
          exact isDatum_error
        · obtain ⟨r, -, rfl⟩ := ho
          cases r with
          | error => exact isDatum_error
          | value v => exact isDatum_value v
  | .field base name, _, o, ho => by
      obtain ⟨b, -, rfl⟩ := ho
      cases b with
      | error => exact isDatum_error
      | value a => exact isDatum_value _

lemma isDatum_evaluateAll {masks : Bool} {row : Row V} : ∀ {es : List (Expr V)}, PlacedAll es →
    ∀ s ∈ engine.evaluateAll masks row es, ∀ o ∈ s, IsDatum o
  | [], _, s, hs => by cases hs
  | e :: es, h, s, hs => by
      rcases List.mem_cons.mp hs with rfl | hs
      · exact isDatum_evaluate h.1
      · exact isDatum_evaluateAll h.2 s hs

lemma isDatum_evaluateFirst {masks : Bool} {row : Row V} : ∀ {es : List (Expr V)}, PlacedAll es →
    ∀ s ∈ engine.evaluateFirst masks row es, ∀ o ∈ s, IsDatum o
  | [], _, s, hs => by cases hs
  | e :: es, h, s, hs => by
      rcases List.mem_cons.mp hs with rfl | hs
      · exact isDatum_evaluate h.1
      · exact isDatum_evaluateAll h.2 s hs

end

end IsDatum

/-! ### What is moved -/

/-- An expression that may be moved into an input with some columns. -/
structure Movable (registry : Registry) (columns : List Column) (e : Expr V) : Prop where
  wellFormed : e.WellFormed registry
  placed : Placed e
  deterministic : e.containsNonDeterministic = false
  reads : ∀ c ∈ e.columns, c ∈ columns
  compound : ∀ c, e ≠ .column c

/-! ### What a projection holds -/

namespace PrecomputeProjections

/-- The columns of a projection. -/
def outColumns (p : PrecomputeProjections V) : List Column := p.outs.map Prod.fst

/-- A column of a projection holds an expression: a column passed on, an expression that was moved
into it, or one that its input computes. -/
inductive Supplies (registry : Registry) (columns : List Column) (p : PrecomputeProjections V) :
    Expr V → Column → Prop where
  | passed {c : Column} (hc : c ∈ columns) (hout : (c, .column c) ∈ p.outs) :
      Supplies registry columns p (.column c) c
  | moved {e : Expr V} {c : Column} (he : Movable registry columns e) (hout : (c, e) ∈ p.outs) :
      Supplies registry columns p e c
  | computed {e : Expr V} {c : Column} (he : Movable registry columns e)
      (hout : (c, .column c) ∈ p.outs) (hcomputed : (e, c) ∈ p.computed) :
      Supplies registry columns p e c

/-- A projection keeps what another one has. -/
structure Extends (p p' : PrecomputeProjections V) : Prop where
  computed : p.computed = p'.computed
  outs : p.outs ⊆ p'.outs

/-- What holds of a projection over an input with some columns: its columns are input columns, or
new ones below a bound. -/
structure Inv [DecidableEq V] (registry : Registry) (columns : List Column)
    (computed : List (Expr V × Column)) (first next : ℕ) (p : PrecomputeProjections V) : Prop where
  computed : p.computed = computed
  seen : ∀ q ∈ p.seen, p.Supplies registry columns q.1 q.2
  outs : ∀ q ∈ p.outs, p.Supplies registry columns q.2 q.1 ∧ (p.seen.lookup q.2).isSome = true ∧
    (q.1 ∈ columns ∧ q.2 = .column q.1 ∨ first ≤ q.1.id ∧ q.1.id < next)
  nodup : p.outColumns.Nodup

variable {registry : Registry} {columns : List Column} {computed : List (Expr V × Column)}
  {first next : ℕ} {p p' p'' : PrecomputeProjections V} {e : Expr V} {c : Column}

lemma Extends.rfl : p.Extends p := ⟨.refl _, List.Subset.refl _⟩

lemma Extends.trans (h : p.Extends p') (h' : p'.Extends p'') : p.Extends p'' :=
  ⟨h.computed.trans h'.computed, List.Subset.trans h.outs h'.outs⟩

lemma Supplies.mono (h : p.Supplies registry columns e c) (hp : p.Extends p') :
    p'.Supplies registry columns e c := by
  cases h with
  | passed hc hout => exact .passed hc (hp.outs hout)
  | moved he hout => exact .moved he (hp.outs hout)
  | computed he hout hcomputed => exact .computed he (hp.outs hout) (hp.computed ▸ hcomputed)

/-- An input column holds itself. -/
lemma Supplies.column_eq {c d : Column} (h : p.Supplies registry columns (.column c) d) :
    d = c ∧ c ∈ columns ∧ (c, .column c) ∈ p.outs := by
  cases h with
  | passed hc hout => exact ⟨rfl, hc, hout⟩
  | moved he _ => exact absurd rfl (he.compound c)
  | computed he _ _ => exact absurd rfl (he.compound c)

variable [DecidableEq V]

/-- A column that is added is none of those there are. -/
lemma Inv.notMem_outColumns (h : p.Inv registry columns computed first next)
    (hfirst : ∀ c ∈ columns, c.id < first)
    (hc : c ∈ columns ∧ p.seen.lookup (.column c) = none ∨ first ≤ c.id ∧ next ≤ c.id) :
    c ∉ p.outColumns := by
  intro hmem
  obtain ⟨q, hq, rfl⟩ := List.mem_map.mp hmem
  obtain ⟨-, hseen, hkind⟩ := h.outs q hq
  rcases hc with ⟨hc, hnone⟩ | ⟨hfresh, hnext⟩
  · rcases hkind with ⟨-, heq⟩ | ⟨hid, -⟩
    · rw [heq, hnone] at hseen
      cases hseen
    · exact absurd (hfirst _ hc) (not_lt.mpr hid)
  · rcases hkind with ⟨hc, -⟩ | ⟨-, hid⟩
    · exact absurd (hfirst _ hc) (not_lt.mpr hfresh)
    · exact absurd hid (not_lt.mpr hnext)

/-- More columns may have been created. -/
lemma Inv.mono (h : p.Inv registry columns computed first next) {next' : ℕ}
    (hnext : next ≤ next') : p.Inv registry columns computed first next' :=
  ⟨h.computed, h.seen, fun q hq => (h.outs q hq).imp id (And.imp id
    (Or.imp id fun hid => ⟨hid.1, hid.2.trans_le hnext⟩)), h.nodup⟩

/-- Adding a column that holds an expression. -/
lemma Inv.addToProject (h : p.Inv registry columns computed first next)
    (hfirst : ∀ c ∈ columns, c.id < first) {next' : ℕ} (hnext : next ≤ next')
    (hseen : p.seen.lookup e = none)
    (hkind : c ∈ columns ∧ e = .column c ∨
      Movable registry columns e ∧ first ≤ c.id ∧ next ≤ c.id ∧ c.id < next') :
    (p.addToProject e c).Inv registry columns computed first next' ∧
      p.Extends (p.addToProject e c) ∧ (p.addToProject e c).Supplies registry columns e c := by
  have hextends : p.Extends (p.addToProject e c) := ⟨rfl, List.subset_append_left _ _⟩
  have hout : (c, e) ∈ (p.addToProject e c).outs := List.mem_append_right _ List.mem_cons_self
  have hsupplies : (p.addToProject e c).Supplies registry columns e c := by
    rcases hkind with ⟨hc, rfl⟩ | ⟨he, -⟩
    · exact .passed hc hout
    · exact .moved he hout
  have hadded : (p.addToProject e c).seen = (e, c) :: p.seen := by
    show (if (p.seen.lookup e).isSome then p.seen else (e, c) :: p.seen) = _
    rw [hseen]
    rfl
  have hnew : c ∉ p.outColumns := by
    refine h.notMem_outColumns hfirst ?_
    rcases hkind with ⟨hc, rfl⟩ | ⟨-, hid, hbound, -⟩
    · exact .inl ⟨hc, hseen⟩
    · exact .inr ⟨hid, hbound⟩
  refine ⟨⟨h.computed, ?_, ?_, ?_⟩, hextends, hsupplies⟩
  · rw [hadded]
    intro q hq
    rcases List.mem_cons.mp hq with rfl | hq
    · exact hsupplies
    · exact (h.seen q hq).mono hextends
  · intro q hq
    rw [hadded]
    rcases List.mem_append.mp hq with hq | hq
    · obtain ⟨hold, hlookup, hid⟩ := h.outs q hq
      refine ⟨hold.mono hextends, ?_, hid.imp id fun hid => ⟨hid.1, hid.2.trans_le hnext⟩⟩
      rw [List.lookup_cons]
      split
      · rfl
      · exact hlookup
    · rw [List.mem_singleton.mp hq]
      refine ⟨hsupplies, by rw [List.lookup_cons_self]; rfl, ?_⟩
      rcases hkind with ⟨hc, rfl⟩ | ⟨-, hid, -, hbound⟩
      · exact .inl ⟨hc, rfl⟩
      · exact .inr ⟨hid, hbound⟩
  · rw [outColumns, show (p.addToProject e c).outs = p.outs ++ [(c, e)] from rfl, List.map_append]
    exact h.nodup.append (List.nodup_singleton c) (by simpa using hnew)

/-- An input column is there, or passing it on adds it. -/
lemma Inv.kept (h : p.Inv registry columns computed first next)
    (hfirst : ∀ c ∈ columns, c.id < first) (hc : c ∈ columns) :
    ∃ kept, (if (p.seen.lookup (.column c)).isSome then p else p.addToProject (.column c) c) =
        kept ∧
      kept.Inv registry columns computed first next ∧ p.Extends kept ∧
      (c, .column c) ∈ kept.outs ∧
      ∀ q ∈ kept.outs, q ∈ p.outs ∨ q.1 ∈ columns ∧ q.2 = .column q.1 := by
  rcases hlookup : p.seen.lookup (.column c) with - | d
  · obtain ⟨hinv, hextends, hsupplies⟩ := h.addToProject hfirst le_rfl hlookup (.inl ⟨hc, rfl⟩)
    refine ⟨_, if_neg (by rw [hlookup]; nofun), hinv, hextends, hsupplies.column_eq.2.2,
      fun q hq => ?_⟩
    rcases List.mem_append.mp hq with hq | hq
    · exact .inl hq
    · rw [List.mem_singleton.mp hq]
      exact .inr ⟨hc, rfl⟩
  · have hsupplies := h.seen _ (mem_of_lookup hlookup)
    exact ⟨p, if_pos (by rw [hlookup]; rfl), h, .rfl, hsupplies.column_eq.2.2, fun q hq => .inl hq⟩

/-- **What `toColumn` does**: a column holds the expression afterwards, and nothing else is added
but columns that are passed on. -/
lemma Inv.toColumn_spec (h : p.Inv registry columns computed first next)
    (hfirst : ∀ c ∈ columns, c.id < first) (hle : first ≤ next)
    (houtputs : ∀ q ∈ computed, q.2 ∈ columns)
    (he : (∃ c ∈ columns, e = .column c) ∨ Movable registry columns e) :
    ∃ c p' next', p.toColumn next e = (.column c, p', next') ∧ next ≤ next' ∧
      p'.Inv registry columns computed first next' ∧ p.Extends p' ∧
      p'.Supplies registry columns e c ∧
      ∀ q ∈ p'.outs, q ∈ p.outs ∨ (q.1 ∈ columns ∧ q.2 = .column q.1) ∨
        q.2 = e ∧ next ≤ q.1.id := by
  have hseen (he : Movable registry columns e) (c : Column) (hlookup : p.seen.lookup e = some c) :
      p.toColumn next e = (.column c, p, next) := by
    cases e with
    | column c => exact absurd rfl (he.compound c)
    | lambda args body => exact he.placed.elim
    | literal | call | field => simp only [toColumn, hlookup]
  have hcomputed (he : Movable registry columns e) (c : Column) (hlookup : p.seen.lookup e = none)
      (hcomputed : p.computed.lookup e = some c) : p.toColumn next e =
        let kept := if (p.seen.lookup (.column c)).isSome then p else p.addToProject (.column c) c
        (.column c, { kept with seen := (e, c) :: kept.seen }, next) := by
    cases e with
    | column c => exact absurd rfl (he.compound c)
    | lambda args body => exact he.placed.elim
    | literal | call | field => simp only [toColumn, hlookup, hcomputed]
  have hcreated (he : Movable registry columns e) (hlookup : p.seen.lookup e = none)
      (hcomputed : p.computed.lookup e = none) :
      p.toColumn next e = (.column ⟨next⟩, p.addToProject e ⟨next⟩, next + 1) := by
    cases e with
    | column c => exact absurd rfl (he.compound c)
    | lambda args body => exact he.placed.elim
    | literal | call | field => simp only [toColumn, hlookup, hcomputed]
  rcases he with ⟨c, hc, rfl⟩ | he
  · rw [toColumn]
    rcases hlookup : p.seen.lookup (.column c) with - | d
    · obtain ⟨hinv, hextends, hsupplies⟩ := h.addToProject hfirst le_rfl hlookup (.inl ⟨hc, rfl⟩)
      refine ⟨c, _, _, by simp only [hlookup], le_rfl, hinv, hextends, hsupplies, fun q hq => ?_⟩
      rcases List.mem_append.mp hq with hq | hq
      · exact .inl hq
      · rw [List.mem_singleton.mp hq]
        exact .inr (.inl ⟨hc, rfl⟩)
    · have hsupplies : p.Supplies registry columns (.column c) d := h.seen _ (mem_of_lookup hlookup)
      obtain ⟨rfl, -, -⟩ := hsupplies.column_eq
      exact ⟨d, p, next, by simp only [hlookup, ne_eq, not_true_eq_false, if_false], le_rfl, h,
        .rfl, hsupplies, fun q hq => .inl hq⟩
  · rcases hlookup : p.seen.lookup e with - | c
    · rcases hcomp : p.computed.lookup e with - | c
      · rw [hcreated he hlookup hcomp]
        obtain ⟨hinv, hextends, hsupplies⟩ := h.addToProject (c := ⟨next⟩) hfirst (Nat.le_succ next)
          hlookup (.inr ⟨he, hle, le_rfl, Nat.lt_succ_self next⟩)
        refine ⟨⟨next⟩, _, _, rfl, Nat.le_succ next, hinv, hextends, hsupplies, fun q hq => ?_⟩
        rcases List.mem_append.mp hq with hq | hq
        · exact .inl hq
        · rw [List.mem_singleton.mp hq]
          exact .inr (.inr ⟨rfl, le_rfl⟩)
      · rw [hcomputed he c hlookup hcomp]
        have hmem := mem_of_lookup hcomp
        have hc : c ∈ columns := houtputs _ (h.computed ▸ hmem)
        obtain ⟨kept, hkept, hinv, hextends, hout, houts⟩ := h.kept hfirst hc
        have hsupplies : kept.Supplies registry columns e c :=
          .computed he hout (hextends.computed ▸ hmem)
        refine ⟨c, { kept with seen := (e, c) :: kept.seen }, next, by simp only [hkept], le_rfl,
          ⟨hinv.computed, ?_, ?_, hinv.nodup⟩, ⟨hextends.computed, hextends.outs⟩,
          hsupplies.mono ⟨rfl, List.Subset.refl _⟩, fun q hq => (houts q hq).imp id .inl⟩
        · intro q hq
          rcases List.mem_cons.mp hq with rfl | hq
          · exact hsupplies.mono ⟨rfl, List.Subset.refl _⟩
          · exact (hinv.seen q hq).mono ⟨rfl, List.Subset.refl _⟩
        · intro q hq
          obtain ⟨hold, hlookup', hkind⟩ := hinv.outs q hq
          refine ⟨hold.mono ⟨rfl, List.Subset.refl _⟩, ?_, hkind⟩
          rw [List.lookup_cons]
          split
          · rfl
          · exact hlookup'
    · exact ⟨c, p, next, hseen he c hlookup, le_rfl, h, .rfl, h.seen _ (mem_of_lookup hlookup),
        fun q hq => .inl hq⟩

end PrecomputeProjections

end Verax.JoinFilters
