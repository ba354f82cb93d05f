import Verax.JoinFilters.Inputs

/-!
# What the rewriter keeps true

A rewritten expression comes to the same over the inputs with their new columns as it did before,
and an error of a new column is an error of the expression it was taken from, if nothing masks it.

* `Projects`, `Raises`: the rows of a projection, and whether it has none for a row.
* `Same`: two expressions come to the same, before and after.
* `Rewritten`: what a step of the rewriter does; `rewrite_spec`: what the rewriter does.
-/

namespace Verax.JoinFilters

open QueryGraph Lib Lib.Dictionary Lib.StateExcept

variable {V : Type}

/-! ### Rows of a projection -/

namespace PrecomputeProjections

/-- A row of a projection for a row of its input. -/
def Projects (engine : Engine V) (p : PrecomputeProjections V) (l l' : Row V) : Prop :=
  ∀ q ∈ p.outs, engine.evaluate true l q.2 = {.value (.value (l' q.1))}

/-- A projection may raise an error on a row of its input. -/
def Raises (engine : Engine V) (p : PrecomputeProjections V) (l : Row V) : Prop :=
  ∃ q ∈ p.outs, .error ∈ engine.evaluate true l q.2

/-- The columns that are added raise only errors that expressions do, on the row for any row of the
other input. -/
def Exposes (engine : Engine V) (p p' : PrecomputeProjections V) (row : Row V → Row V → Row V)
    (es : List (Expr V)) : Prop :=
  ∀ q ∈ p'.outs, q ∈ p.outs ∨ ∀ l r, .error ∈ engine.evaluate true l q.2 →
    ∃ e ∈ es, .error ∈ engine.evaluate false (row l r) e

variable {engine : Engine V} {registry : Registry} {input : Input engine} {first next : ℕ}
  {p p' p'' : PrecomputeProjections V} {e : Expr V} {c : Column} {l l' : Row V}

lemma Projects.mono (h : p'.Projects engine l l') (hp : p.Extends p') : p.Projects engine l l' :=
  fun q hq => h q (hp.outs hq)

lemma Exposes.refl (row : Row V → Row V → Row V) (es : List (Expr V)) :
    p.Exposes engine p row es := fun _ => .inl

lemma Exposes.trans {row : Row V → Row V → Row V} {es fs : List (Expr V)}
    (h : p.Exposes engine p' row es) (h' : p'.Exposes engine p'' row fs) :
    p.Exposes engine p'' row (es ++ fs) := by
  intro q hq
  rcases h' q hq with hq | hexposes
  · rcases h q hq with hq | hexposes
    · exact .inl hq
    · refine .inr fun l r herror => ?_
      obtain ⟨e, he, herror⟩ := hexposes l r herror
      exact ⟨e, List.mem_append_left fs he, herror⟩
  · refine .inr fun l r herror => ?_
    obtain ⟨e, he, herror⟩ := hexposes l r herror
    exact ⟨e, List.mem_append_right es he, herror⟩

/-- What raises the errors of expressions may take their place. -/
lemma Exposes.imp {row : Row V → Row V → Row V} {es fs : List (Expr V)}
    (h : p.Exposes engine p' row es) (hes : ∀ row', ∀ e ∈ es,
      .error ∈ engine.evaluate false row' e → ∃ f ∈ fs, .error ∈ engine.evaluate false row' f) :
    p.Exposes engine p' row fs := by
  intro q hq
  refine (h q hq).imp id fun hexposes l r herror => ?_
  obtain ⟨e, he, herror⟩ := hexposes l r herror
  exact hes _ e he herror

/-- A column has the value of the expression it holds. -/
lemma Supplies.evaluate_eq (h : p.Supplies registry input.columns e c)
    (hcomputed : p.computed = input.computed) (hl : l ∈ input.rows)
    (hprojects : p.Projects engine l l') :
    engine.evaluate true l e = {.value (.value (l' c))} := by
  cases h with
  | passed _ hout => exact hprojects _ hout
  | moved _ hout => exact hprojects _ hout
  | computed he hout hmem =>
      have hcolumn : engine.evaluate true l (.column c) = {.value (.value (l' c))} :=
        hprojects _ hout
      have hvalue := input.computes (e, c) (hcomputed ▸ hmem) he.deterministic he.reads l hl
      exact hvalue.trans hcolumn

lemma Supplies.mem_outColumns {columns : List Column}
    (h : p.Supplies registry columns e c) : c ∈ p.outColumns := by
  cases h with
  | passed _ hout => exact List.mem_map_of_mem hout
  | moved _ hout => exact List.mem_map_of_mem hout
  | computed _ hout _ => exact List.mem_map_of_mem hout

/-- What a column holds reads columns of the input. -/
lemma Supplies.reads {columns : List Column} (h : p.Supplies registry columns e c) :
    ∀ d ∈ e.columns, d ∈ columns := by
  cases h with
  | passed hc _ =>
      intro d hd
      rwa [Finset.mem_singleton.mp hd]
  | moved he _ => exact he.reads
  | computed he _ _ => exact he.reads

/-- A column of a projection comes to a value if it raises no error. -/
lemma Supplies.exists_value {columns : List Column} (h : p.Supplies registry columns e c)
    (hengine : engine.Lawful registry) (hraises : .error ∉ engine.evaluate true l e) :
    ∃ v, engine.evaluate true l e = {.value (.value v)} := by
  have hmovable (he : Movable registry columns e) :
      ∃ v, engine.evaluate true l e = {.value (.value v)} := by
    obtain ⟨o, ho, -⟩ := Engine.exists_evaluate_eq hengine true l he.wellFormed he.deterministic
    have hmem : o ∈ engine.evaluate true l e := ho ▸ rfl
    cases o with
    | error => exact absurd hmem hraises
    | value a =>
        obtain ⟨v, rfl⟩ := isDatum_evaluate he.placed _ hmem a rfl
        exact ⟨v, ho⟩
  cases h with
  | passed _ _ => exact ⟨l c, rfl⟩
  | moved he _ => exact hmovable he
  | computed he _ _ => exact hmovable he

/-- A projection has a row for each row on which it raises no error. -/
lemma Inv.exists_projects [DecidableEq V]
    (h : p.Inv registry input.columns input.computed first next) (hengine : engine.Lawful registry)
    (hraises : ¬ p.Raises engine l) : ∃ l', p.Projects engine l l' := by
  classical
  have hvalue : ∀ q : Column × Expr V, ∃ v, q ∈ p.outs →
      engine.evaluate true l q.2 = {.value (.value v)} := by
    intro q
    by_cases hq : q ∈ p.outs
    · obtain ⟨v, hv⟩ := (h.outs q hq).1.exists_value hengine fun herror => hraises ⟨q, hq, herror⟩
      exact ⟨v, fun _ => hv⟩
    · exact ⟨none, fun hq' => absurd hq' hq⟩
  choose value hvalue using hvalue
  refine ⟨fun c => (p.outs.find? fun q => decide (q.1 = c)).bind value, fun q hq => ?_⟩
  have hfind : (p.outs.find? fun q' => decide (q'.1 = q.1)).bind value = value q := by
    rw [find?_key h.nodup hq]
    rfl
  rw [hvalue q hq]
  exact congrArg (fun v => {Outcome.value (Argument.value v)}) hfind.symm

end PrecomputeProjections

/-! ### States of the rewriter -/

variable {engine : Engine V} {registry : Registry} {inputs : Inputs engine}

namespace JoinFilterRewriter

/-- The projections keep what they have. -/
structure Advances (s s' : JoinFilterRewriter V) : Prop where
  left : s.left.Extends s'.left
  right : s.right.Extends s'.right

/-- A projection has a column for an input column. -/
def Holds (inputs : Inputs engine) (s : JoinFilterRewriter V) (c : Column) : Prop :=
  c ∈ inputs.left.columns ∧ (c, .column c) ∈ s.left.outs ∨
    c ∈ inputs.right.columns ∧ (c, .column c) ∈ s.right.outs

variable {s s' s'' : JoinFilterRewriter V} {e e' : Expr V} {c : Column}
  {es es' fs fs' exposing exposing' : List (Expr V)}

lemma Advances.rfl : s.Advances s := ⟨.rfl, .rfl⟩

lemma Advances.trans (h : s.Advances s') (h' : s'.Advances s'') : s.Advances s'' :=
  ⟨h.left.trans h'.left, h.right.trans h'.right⟩

lemma Holds.mono (h : s.Holds inputs c) (hs : s.Advances s') : s'.Holds inputs c :=
  h.imp (fun h => ⟨h.1, hs.left.outs h.2⟩) fun h => ⟨h.1, hs.right.outs h.2⟩

/-- A row for a pair of rows has the values of each row for what reads its input. -/
lemma evaluate_pairRow_left {masks : Bool} {columns : List Column} {l r : Row V}
    (h : ∀ c ∈ e.columns, c ∈ columns) :
    engine.evaluate masks (pairRow columns l r) e = engine.evaluate masks l e :=
  Engine.evaluate_congr fun c hc => if_pos (h c hc)

lemma evaluate_pairRow_right {masks : Bool} {columns : List Column} {l r : Row V}
    (h : ∀ c ∈ e.columns, c ∉ columns) :
    engine.evaluate masks (pairRow columns l r) e = engine.evaluate masks r e :=
  Engine.evaluate_congr fun c hc => if_neg (h c hc)

/-- What a projection adds for an expression raises no error that the expression does not. -/
lemma exposes_of_added {p p' : PrecomputeProjections V} {columns : List Column} {next : ℕ}
    {row : Row V → Row V → Row V} (hengine : engine.Lawful registry)
    (hrow : ∀ l r, engine.evaluate true (row l r) e = engine.evaluate true l e)
    (hadded : ∀ q ∈ p'.outs, q ∈ p.outs ∨ (q.1 ∈ columns ∧ q.2 = .column q.1) ∨
      q.2 = e ∧ next ≤ q.1.id) : p.Exposes engine p' row [e] := by
  intro q hq
  rcases hadded q hq with hq | ⟨-, hcolumn⟩ | ⟨heq, -⟩
  · exact .inl hq
  · refine .inr fun l r herror => ?_
    rw [hcolumn] at herror
    cases herror
  · refine .inr fun l r herror => ⟨e, List.mem_cons_self, ?_⟩
    rw [heq, ← hrow l r] at herror
    exact (Engine.mem_evaluate_of_masks hengine _ e _ herror).elim id id

variable [DecidableEq V]

/-- What holds of the rewriter of a filter over inputs. -/
structure Inv (registry : Registry) (inputs : Inputs engine) (s : JoinFilterRewriter V) :
    Prop where
  leftColumns : s.leftColumns = inputs.left.columns
  rightColumns : s.rightColumns = inputs.right.columns
  left : s.left.Inv registry inputs.left.columns inputs.left.computed inputs.nextColumn s.nextColumn
  right : s.right.Inv registry inputs.right.columns inputs.right.computed inputs.nextColumn
    s.nextColumn
  le : inputs.nextColumn ≤ s.nextColumn
  disjoint : ∀ c ∈ s.left.outColumns, c ∉ s.right.outColumns

/-- An expression comes to the same over the projections as another over the inputs, whatever
columns are added later. -/
def Same (registry : Registry) (inputs : Inputs engine) (s : JoinFilterRewriter V)
    (e e' : Expr V) : Prop :=
  ∀ s' : JoinFilterRewriter V, s.Advances s' → s'.Inv registry inputs →
    ∀ l ∈ inputs.left.rows, ∀ r ∈ inputs.right.rows, ∀ l' r', s'.left.Projects engine l l' →
      s'.right.Projects engine r r' →
        engine.evaluate true (pairRow s'.left.outColumns l' r') e' =
          engine.evaluate true (pairRow inputs.left.columns l r) e

/-- A step of the rewriter replaces expressions; the errors of what it adds are errors of
`exposing`, if nothing masks them. -/
structure Rewritten (registry : Registry) (inputs : Inputs engine) (s s' : JoinFilterRewriter V)
    (es es' exposing : List (Expr V)) : Prop where
  inv : s'.Inv registry inputs
  advances : s.Advances s'
  same : List.Forall₂ (Same registry inputs s') es es'
  left : s.left.Exposes engine s'.left (pairRow inputs.left.columns) exposing
  right : s.right.Exposes engine s'.right (fun r l => pairRow inputs.left.columns l r) exposing

lemma Same.mono (h : s.Same registry inputs e e') (hs : s.Advances s') :
    s'.Same registry inputs e e' := fun s'' hs'' => h s'' (hs.trans hs'')

lemma Rewritten.refl (h : s.Inv registry inputs) : s.Rewritten registry inputs s [] [] [] :=
  ⟨h, .rfl, .nil, .refl _ _, .refl _ _⟩

lemma Rewritten.append (h : s.Rewritten registry inputs s' es es' exposing)
    (h' : s'.Rewritten registry inputs s'' fs fs' exposing') :
    s.Rewritten registry inputs s'' (es ++ fs) (es' ++ fs') (exposing ++ exposing') :=
  ⟨h'.inv, h.advances.trans h'.advances,
    List.rel_append (h.same.imp fun _ _ h => h.mono h'.advances) h'.same, h.left.trans h'.left,
    h.right.trans h'.right⟩

/-- Other expressions may be replaced, and other ones raise the errors. -/
lemma Rewritten.imp (h : s.Rewritten registry inputs s' es es' exposing)
    (hsame : List.Forall₂ (Same registry inputs s') es es' →
      List.Forall₂ (Same registry inputs s') fs fs')
    (hexposing : ∀ row, ∀ e ∈ exposing, .error ∈ engine.evaluate false row e →
      ∃ f ∈ exposing', .error ∈ engine.evaluate false row f) :
    s.Rewritten registry inputs s' fs fs' exposing' :=
  ⟨h.inv, h.advances, hsame h.same, h.left.imp hexposing, h.right.imp hexposing⟩

/-! ### Steps of the rewriter -/

lemma toLeftColumn_spec (hengine : engine.Lawful registry) (h : s.Inv registry inputs)
    (he : (∃ c ∈ inputs.left.columns, e = .column c) ∨ Movable registry inputs.left.columns e) :
    Runs s (toLeftColumn e) (fun e' s' => s.Rewritten registry inputs s' [e] [e'] [e] ∧
      ∀ c, e = .column c → s'.Holds inputs c) fun _ => False := by
  obtain ⟨c, p', next', heq, hnext, hinv, hextends, hsupplies, hadded⟩ :=
    h.left.toColumn_spec (fun c hc => inputs.fresh c (.inl hc)) h.le inputs.left.outputs he
  have hreads := hsupplies.reads
  refine Runs.get_bind (Runs.modify_bind (Runs.pure ?_))
  rw [heq]
  refine ⟨⟨⟨h.leftColumns, h.rightColumns, hinv, h.right.mono hnext, h.le.trans hnext, ?_⟩,
    ⟨hextends, .rfl⟩, .cons ?_ .nil,
    exposes_of_added hengine (fun l r => evaluate_pairRow_left hreads) hadded, .refl _ _⟩, ?_⟩
  · intro d hd hright
    obtain ⟨q, hq, rfl⟩ := List.mem_map.mp hd
    obtain ⟨q', hq', hid⟩ := List.mem_map.mp hright
    rcases hadded q hq with hq | ⟨hleft, -⟩ | ⟨-, hlarge⟩
    · exact h.disjoint _ (List.mem_map_of_mem hq) hright
    · rcases (h.right.outs q' hq').2.2 with ⟨hmem, -⟩ | ⟨hfresh, -⟩
      · exact inputs.disjoint _ hleft (hid ▸ hmem)
      · exact absurd (inputs.fresh _ (.inl hleft)) (not_lt.mpr (hid ▸ hfresh))
    · rcases (h.right.outs q' hq').2.2 with ⟨hmem, -⟩ | ⟨-, hbound⟩
      · exact absurd (inputs.fresh _ (.inr (hid ▸ hmem))) (not_lt.mpr (h.le.trans hlarge))
      · exact absurd (hid ▸ hbound) (not_lt.mpr hlarge)
  · intro s'' hs'' hinv'' l hl r _ l' r' hleft _
    have hsupplies'' := hsupplies.mono hs''.left
    rw [evaluate_pairRow_left hreads, hsupplies''.evaluate_eq hinv''.left.computed hl hleft]
    show {Outcome.value (Argument.value (pairRow s''.left.outColumns l' r' c))} = _
    rw [pairRow, if_pos hsupplies''.mem_outColumns]
  · rintro d rfl
    exact .inl hsupplies.column_eq.2

lemma toRightColumn_spec (hengine : engine.Lawful registry) (h : s.Inv registry inputs)
    (he : (∃ c ∈ inputs.right.columns, e = .column c) ∨
      Movable registry inputs.right.columns e) :
    Runs s (toRightColumn e) (fun e' s' => s.Rewritten registry inputs s' [e] [e'] [e] ∧
      ∀ c, e = .column c → s'.Holds inputs c) fun _ => False := by
  obtain ⟨c, p', next', heq, hnext, hinv, hextends, hsupplies, hadded⟩ :=
    h.right.toColumn_spec (fun c hc => inputs.fresh c (.inr hc)) h.le inputs.right.outputs he
  have hreads : ∀ d ∈ e.columns, d ∉ inputs.left.columns := fun d hd hleft =>
    inputs.disjoint d hleft (hsupplies.reads d hd)
  refine Runs.get_bind (Runs.modify_bind (Runs.pure ?_))
  rw [heq]
  refine ⟨⟨⟨h.leftColumns, h.rightColumns, h.left.mono hnext, hinv, h.le.trans hnext, ?_⟩,
    ⟨.rfl, hextends⟩, .cons ?_ .nil, .refl _ _,
    exposes_of_added hengine (fun r l => evaluate_pairRow_right hreads) hadded⟩, ?_⟩
  · intro d hleft hd
    obtain ⟨q, hq, rfl⟩ := List.mem_map.mp hd
    obtain ⟨q', hq', hid⟩ := List.mem_map.mp hleft
    rcases hadded q hq with hq | ⟨hright, -⟩ | ⟨-, hlarge⟩
    · exact h.disjoint _ hleft (List.mem_map_of_mem hq)
    · rcases (h.left.outs q' hq').2.2 with ⟨hmem, -⟩ | ⟨hfresh, -⟩
      · exact inputs.disjoint _ (hid ▸ hmem) hright
      · exact absurd (inputs.fresh _ (.inr hright)) (not_lt.mpr (hid ▸ hfresh))
    · rcases (h.left.outs q' hq').2.2 with ⟨hmem, -⟩ | ⟨-, hbound⟩
      · exact absurd (inputs.fresh _ (.inl (hid ▸ hmem))) (not_lt.mpr (h.le.trans hlarge))
      · exact absurd (hid ▸ hbound) (not_lt.mpr hlarge)
  · intro s'' hs'' hinv'' l _ r hr l' r' _ hright
    have hsupplies'' := hsupplies.mono hs''.right
    have hc : c ∉ s''.left.outColumns := fun hleft =>
      hinv''.disjoint c hleft hsupplies''.mem_outColumns
    rw [evaluate_pairRow_right hreads, hsupplies''.evaluate_eq hinv''.right.computed hr hright]
    show {Outcome.value (Argument.value (pairRow s''.left.outColumns l' r' c))} = _
    rw [pairRow, if_neg hc]
  · rintro d rfl
    exact .inr hsupplies.column_eq.2

/-- Nothing is raised for a column. -/
lemma Rewritten.of_column (h : s.Rewritten registry inputs s' [.column c] es' [.column c]) :
    s.Rewritten registry inputs s' [] [] [] :=
  h.imp (fun _ => .nil) fun row e he herror => by
    rw [List.mem_singleton.mp he] at herror
    cases herror

lemma keep_spec (hengine : engine.Lawful registry) (h : s.Inv registry inputs)
    (hc : c ∈ inputs.left.columns ∨ c ∈ inputs.right.columns) :
    Runs s (keep c) (fun _ s' => s.Rewritten registry inputs s' [] [] [] ∧ s'.Holds inputs c)
      fun _ => False := by
  refine Runs.get_bind ?_
  rw [h.leftColumns, h.rightColumns]
  split
  · next hleft =>
    refine (toLeftColumn_spec hengine h (.inl ⟨c, hleft, rfl⟩)).bind ?_ fun _ => id
    exact fun e' s' hs' => Runs.pure ⟨hs'.1.of_column, hs'.2 c rfl⟩
  · next hleft =>
    have hright : c ∈ inputs.right.columns := hc.resolve_left hleft
    rw [if_pos hright]
    refine (toRightColumn_spec hengine h (.inl ⟨c, hright, rfl⟩)).bind ?_ fun _ => id
    exact fun e' s' hs' => Runs.pure ⟨hs'.1.of_column, hs'.2 c rfl⟩

/-- Keeping columns, one after the other. -/
lemma keepColumns_spec (hengine : engine.Lawful registry) : ∀ {l : List Column}
    {s : JoinFilterRewriter V}, s.Inv registry inputs →
      (∀ c ∈ l, c ∈ inputs.left.columns ∨ c ∈ inputs.right.columns) →
        Runs s (l.forM keep) (fun _ s' => s.Rewritten registry inputs s' [] [] [] ∧
          ∀ c ∈ l, s'.Holds inputs c) fun _ => False
  | [], s, h, _ => Runs.pure ⟨.refl h, by simp⟩
  | c :: l, s, h, hl => by
      show Runs s (keep c >>= fun _ => l.forM keep) _ _
      refine (keep_spec hengine h (hl c List.mem_cons_self)).bind (fun _ s₁ h₁ => ?_) fun _ => id
      refine (keepColumns_spec hengine h₁.1.inv fun d hd => hl d (List.mem_cons_of_mem c hd)).conseq
        (fun _ s₂ h₂ => ⟨h₁.1.append h₂.1, ?_⟩) fun _ => id
      exact List.forall_mem_cons.mpr ⟨h₁.2.mono h₂.1.advances, h₂.2⟩

/-- What reads kept columns only comes to the same. -/
lemma same_of_holds (h : ∀ c ∈ e.columns, s.Holds inputs c) : s.Same registry inputs e e := by
  intro s' hs' hinv' l _ r _ l' r' hleft hright
  refine Engine.evaluate_congr fun c hc => ?_
  have hvalue {p : PrecomputeProjections V} {l l' : Row V} (hp : p.Projects engine l l')
      (hout : (c, .column c) ∈ p.outs) : l' c = l c := by
    have heq : ({.value (.value (l c))} : Set (Outcome (Argument V))) = {.value (.value (l' c))} :=
      hp _ hout
    injection Set.singleton_injective heq with heq
    injection heq with heq
    exact heq.symm
  rcases (h c hc).mono hs' with ⟨hc, hout⟩ | ⟨hc, hout⟩
  · have hmem : c ∈ s'.left.outColumns := List.mem_map_of_mem hout
    rw [pairRow, if_pos hmem, pairRow, if_pos hc, hvalue hleft hout]
  · have hmem : c ∉ s'.left.outColumns := fun hmem =>
      hinv'.disjoint c hmem (List.mem_map_of_mem hout)
    rw [pairRow, if_neg hmem, pairRow, if_neg fun hleft => inputs.disjoint c hleft hc,
      hvalue hright hout]

omit [DecidableEq V] in
lemma mem_columnList : c ∈ columnList e ↔ c ∈ e.columns := by
  simp only [columnList, List.mem_map, Finset.mem_sort, Finset.mem_image]
  constructor
  · rintro ⟨_, ⟨d, hd, rfl⟩, rfl⟩
    exact hd
  · exact fun hc => ⟨c.id, ⟨c, hc, rfl⟩, rfl⟩

lemma keepAll_spec (hengine : engine.Lawful registry) (h : s.Inv registry inputs)
    (he : ∀ c ∈ e.columns, c ∈ inputs.left.columns ∨ c ∈ inputs.right.columns) :
    Runs s (keepAll e) (fun _ s' => s.Rewritten registry inputs s' [e] [e] []) fun _ => False :=
  (keepColumns_spec hengine h fun c hc => he c (mem_columnList.mp hc)).conseq
    (fun _ _ h' => h'.1.imp (fun _ => .cons (same_of_holds fun c hc =>
      h'.2 c (mem_columnList.mpr hc)) .nil) fun _ _ => by simp) fun _ => id

lemma keepEach_spec (hengine : engine.Lawful registry) : ∀ {es : List (Expr V)}
    {s : JoinFilterRewriter V}, s.Inv registry inputs →
      (∀ c ∈ Expr.columnsAll es, c ∈ inputs.left.columns ∨ c ∈ inputs.right.columns) →
        Runs s (es.forM keepAll) (fun _ s' => s.Rewritten registry inputs s' es es [])
          fun _ => False
  | [], s, h, _ => Runs.pure (.refl h)
  | e :: es, s, h, hes => by
      show Runs s (keepAll e >>= fun _ => es.forM keepAll) _ _
      refine (keepAll_spec hengine h fun c hc => hes c (Finset.mem_union_left _ hc)).bind
        (fun _ s₁ h₁ => ?_) fun _ => id
      exact (keepEach_spec hengine h₁.inv fun c hc => hes c (Finset.mem_union_right _ hc)).conseq
        (fun _ s₂ h₂ => h₁.append h₂) fun _ => id

/-- **What `tryPrecompute` does**: nothing, or it moves the expression. -/
lemma tryPrecompute_spec (hengine : engine.Lawful registry) (h : s.Inv registry inputs)
    (hwell : e.WellFormed registry) (hplaced : Placed e) (hcompound : ∀ c, e ≠ .column c) :
    Runs s (tryPrecompute e) (fun result s' => match result with
      | none => s' = s
      | some e' => s.Rewritten registry inputs s' [e] [e'] [e]) fun _ => False := by
  refine Runs.get_bind ?_
  rw [h.leftColumns, h.rightColumns]
  split
  · exact Runs.pure rfl
  next hdet =>
  have hmovable {columns : List Column} (hreads : ∀ c ∈ e.columns, c ∈ columns) :
      Movable registry columns e :=
    ⟨hwell, hplaced, Bool.eq_false_iff.mpr hdet, hreads, hcompound⟩
  split
  · exact Runs.pure rfl
  split
  · next hleft =>
    refine (toLeftColumn_spec hengine h (.inr (hmovable hleft))).bind ?_ fun _ => id
    exact fun e' s' hs' => Runs.pure hs'.1
  split
  · next hright =>
    refine (toRightColumn_spec hengine h (.inr (hmovable hright))).bind ?_ fun _ => id
    exact fun e' s' hs' => Runs.pure hs'.1
  · exact Runs.pure rfl

/-! ### Calls -/

omit [DecidableEq V] in
lemma evaluateFirst_true (row : Row V) (es : List (Expr V)) :
    engine.evaluateFirst true row es = engine.evaluateAll true row es := by
  cases es <;> rfl

/-- Lists of expressions come to the same if their items do. -/
lemma evaluateAll_same (hs : s.Advances s') (hinv : s'.Inv registry inputs) {l r l' r' : Row V}
    (hl : l ∈ inputs.left.rows) (hr : r ∈ inputs.right.rows) (hleft : s'.left.Projects engine l l')
    (hright : s'.right.Projects engine r r') (h : List.Forall₂ (Same registry inputs s) es es') :
    engine.evaluateAll true (pairRow s'.left.outColumns l' r') es' =
      engine.evaluateAll true (pairRow inputs.left.columns l r) es := by
  induction h with
  | nil => rfl
  | cons he _ ih => rw [Engine.evaluateAll, Engine.evaluateAll,
      he s' hs hinv l hl r hr l' r' hleft hright, ih]

lemma same_call {name : String} {functions functions' : FunctionSet}
    (h : List.Forall₂ (Same registry inputs s) es es') :
    s.Same registry inputs (.call name functions es) (.call name functions' es') := by
  intro s' hs hinv l hl r hr l' r' hleft hright
  rw [Engine.evaluate, Engine.evaluate, evaluateFirst_true, evaluateFirst_true,
    evaluateAll_same hs hinv hl hr hleft hright h]

lemma same_field {name : String} (h : s.Same registry inputs e e') :
    s.Same registry inputs (.field e name) (.field e' name) := by
  intro s' hs hinv l hl r hr l' r' hleft hright
  rw [Engine.evaluate, Engine.evaluate, h s' hs hinv l hl r hr l' r' hleft hright]

omit [DecidableEq V] in
lemma mem_evaluateAll {masks : Bool} {row : Row V} (he : e ∈ es) :
    engine.evaluate masks row e ∈ engine.evaluateAll masks row es := by
  induction es with
  | nil => cases he
  | cons e' es ih =>
      rcases List.mem_cons.mp he with rfl | he
      · exact List.mem_cons_self
      · exact List.mem_cons_of_mem _ (ih he)

omit [DecidableEq V] in
/-- A call raises the errors of its arguments if nothing masks them. -/
lemma error_mem_call (hengine : engine.Lawful registry) {row : Row V} {name : String}
    {functions : FunctionSet} (htry : name ≠ kTry)
    (hfirst : ¬ (name = kIf ∨ name = kSwitch ∨ name = kCoalesce)) (he : e ∈ es)
    (herror : .error ∈ engine.evaluate false row e) :
    .error ∈ engine.evaluate false row (.call name functions es) := by
  obtain ⟨os, hos, hmem⟩ := Engine.exists_mem_choices herror
    (Engine.evaluateAll_nonempty hengine false row es) (mem_evaluateAll he)
  rw [Engine.evaluate]
  split
  · exact ⟨os, hos, (Engine.connective_of_error hmem).symm⟩
  split
  · exact ⟨os, hos, (Engine.connective_of_error hmem).symm⟩
  rw [if_neg fun h => hfirst (h.imp id .inl), if_neg fun h => hfirst (.inr (.inr h))]
  exact ⟨os, hos, by rw [if_pos (Engine.any_isError.mpr hmem)]⟩

omit [DecidableEq V] in
/-- IF, SWITCH and COALESCE raise the errors of their first argument. -/
lemma error_mem_first {row : Row V} {name : String} {functions : FunctionSet}
    (hfirst : name = kIf ∨ name = kSwitch ∨ name = kCoalesce)
    (herror : .error ∈ engine.evaluate false row e) :
    .error ∈ engine.evaluate false row (.call name functions (e :: es)) := by
  have hswitch : .error ∈ engine.switchOf (engine.evaluateFirst false row (e :: es)) := by
    cases es with
    | nil => exact herror
    | cons => exact .inl ⟨herror, rfl⟩
  have hcoalesce : .error ∈ Engine.coalesceOf (engine.evaluateFirst false row (e :: es)) :=
    .inl ⟨herror, rfl⟩
  rw [Engine.evaluate]
  rcases hfirst with rfl | rfl | rfl
  · simpa [kIf, kAnd, kOr, kTry] using hswitch
  · simpa [kSwitch, kAnd, kOr, kTry] using hswitch
  · simpa [kCoalesce, kIf, kSwitch, kAnd, kOr, kTry] using hcoalesce

/-! ### The rewriter -/

/-- An argument that is no lambda is rewritten. -/
lemma rewriteArgs_cons (hplaced : PlacedArgs (e :: es))
    (he : ¬ ∃ params body, e = .lambda params body) :
    (rewriteArgs (e :: es) = do
      let newArg ← rewrite e
      return newArg :: (← rewriteArgs es)) ∧ Placed e ∧ PlacedArgs es := by
  cases e with
  | lambda params body => exact absurd ⟨params, body, rfl⟩ he
  | column | literal | call | field => exact ⟨rewriteArgs.eq_3 _ _ nofun, hplaced⟩

mutual

/-- **What the rewriter does** to an expression. -/
lemma rewrite_spec (hengine : engine.Lawful registry) : ∀ {e : Expr V} {s : JoinFilterRewriter V},
    s.Inv registry inputs → e.WellFormed registry → Placed e →
      (∀ c ∈ e.columns, c ∈ inputs.left.columns ∨ c ∈ inputs.right.columns) →
        Runs s (rewrite e) (fun e' s' => s.Rewritten registry inputs s' [e] [e'] [e])
          fun _ => False
  | .call name functions args, s, h, hwell, hplaced, hreads => by
      rw [rewrite]
      refine (tryPrecompute_spec hengine h hwell hplaced nofun).bind (fun result s₁ h₁ => ?_)
        fun _ => id
      rcases result with - | e'
      · rw [show s₁ = s from h₁]
        dsimp only
        split
        · refine (keepAll_spec hengine h hreads).bind (fun _ s₂ h₂ => Runs.pure ?_) fun _ => id
          exact h₂.imp id fun _ _ hmem => by cases hmem
        next htry =>
        have hrebuilt {s' : JoinFilterRewriter V} {args' : List (Expr V)}
            (hsame : List.Forall₂ (Same registry inputs s') args args') :
            List.Forall₂ (Same registry inputs s') [.call name functions args]
              [if args' = args then .call name functions args
                else rebuildCall name functions args'] := by
          split
          · next heq => exact .cons (same_call (heq ▸ hsame)) .nil
          · exact .cons (same_call hsame) .nil
        split
        · next hfirst =>
          have hspecial : name ∈ specialFormCallNames := by
            rcases hfirst with rfl | rfl | rfl <;>
              simp [kIf, kSwitch, kCoalesce, specialFormCallNames]
          rw [Placed, if_pos hspecial] at hplaced
          cases args with
          | nil => exact absurd rfl (hplaced.2 hfirst)
          | cons first rest =>
              refine (rewriteFirst_spec hengine h hwell.2 hplaced.1 hreads).bind
                (fun args' s₂ h₂ => Runs.pure (h₂.imp hrebuilt ?_)) fun _ => id
              intro row e he herror
              rw [List.mem_singleton.mp he] at herror
              exact ⟨_, List.mem_cons_self, error_mem_first hfirst herror⟩
        · next hfirst =>
          refine (rewriteArgs_spec hengine h hwell.2 ?_ hreads).bind
            (fun args' s₂ h₂ => Runs.pure (h₂.imp hrebuilt ?_)) fun _ => id
          · rw [Placed] at hplaced
            split at hplaced
            · exact hplaced.1.args
            · exact hplaced
          · intro row e he herror
            exact ⟨_, List.mem_cons_self, error_mem_call hengine htry hfirst he herror⟩
      · exact Runs.pure h₁
  | .field base name, s, h, hwell, hplaced, hreads => by
      rw [rewrite]
      refine (tryPrecompute_spec hengine h hwell hplaced nofun).bind (fun result s₁ h₁ => ?_)
        fun _ => id
      rcases result with - | e'
      · rw [show s₁ = s from h₁]
        dsimp only
        refine (rewrite_spec hengine h (e := base) hwell hplaced hreads).bind
          (fun base' s₂ h₂ => Runs.pure (h₂.imp (fun hsame => ?_) ?_)) fun _ => id
        · obtain ⟨hbase, -⟩ := List.forall₂_cons.mp hsame
          split
          · next heq => exact .cons (same_field (heq ▸ hbase)) .nil
          · exact .cons (same_field hbase) .nil
        · intro row e he herror
          rw [List.mem_singleton.mp he] at herror
          exact ⟨_, List.mem_cons_self, .error, herror, rfl⟩
      · exact Runs.pure h₁
  | .column c, s, h, _, _, hreads => by
      rw [rewrite]
      refine (keep_spec hengine h (hreads c (Finset.mem_singleton_self c))).bind
        (fun _ s₁ h₁ => Runs.pure ?_) fun _ => id
      refine h₁.1.imp (fun _ => .cons (same_of_holds fun d hd => ?_) .nil) fun _ _ hmem => by
        cases hmem
      rw [Finset.mem_singleton.mp hd]
      exact h₁.2
  | .literal value, s, h, _, _, _ => by
      rw [rewrite]
      exact Runs.pure ((Rewritten.refl h).imp (fun _ => .cons (same_of_holds fun d hd => by
        cases Finset.notMem_empty d hd) .nil) fun _ _ hmem => by cases hmem)

/-- The first argument is rewritten, and the columns of the others are kept. -/
lemma rewriteFirst_spec (hengine : engine.Lawful registry) : ∀ {first : Expr V}
    {rest : List (Expr V)} {s : JoinFilterRewriter V}, s.Inv registry inputs →
      Expr.AllWellFormed registry (first :: rest) → PlacedAll (first :: rest) →
        (∀ c ∈ Expr.columnsAll (first :: rest),
          c ∈ inputs.left.columns ∨ c ∈ inputs.right.columns) →
          Runs s (rewriteFirst (first :: rest))
            (fun args' s' => s.Rewritten registry inputs s' (first :: rest) args' [first])
            fun _ => False
  | first, rest, s, h, hwell, hplaced, hreads => by
      rw [rewriteFirst]
      refine (rewrite_spec hengine h hwell.1 hplaced.1 fun c hc =>
        hreads c (Finset.mem_union_left _ hc)).bind (fun first' s₁ h₁ => ?_) fun _ => id
      exact (keepEach_spec hengine h₁.inv fun c hc => hreads c (Finset.mem_union_right _ hc)).bind
        (fun _ s₂ h₂ => Runs.pure (h₁.append h₂)) fun _ => id

/-- Every argument but a lambda is rewritten. -/
lemma rewriteArgs_spec (hengine : engine.Lawful registry) : ∀ {es : List (Expr V)}
    {s : JoinFilterRewriter V}, s.Inv registry inputs → Expr.AllWellFormed registry es →
      PlacedArgs es → (∀ c ∈ Expr.columnsAll es,
        c ∈ inputs.left.columns ∨ c ∈ inputs.right.columns) →
        Runs s (rewriteArgs es) (fun es' s' => s.Rewritten registry inputs s' es es' es)
          fun _ => False
  | [], s, h, _, _, _ => by
      rw [rewriteArgs]
      exact Runs.pure (.refl h)
  | e :: es, s, h, hwell, hplaced, hreads => by
      have hleft := fun c hc => hreads c (Finset.mem_union_left _ hc)
      have hright := fun c hc => hreads c (Finset.mem_union_right _ hc)
      by_cases hlambda : ∃ params body, e = .lambda params body
      · obtain ⟨params, body, rfl⟩ := hlambda
        rw [rewriteArgs]
        refine (keepAll_spec hengine h hleft).bind (fun _ s₁ h₁ => ?_) fun _ => id
        refine (rewriteArgs_spec hengine h₁.inv hwell.2 hplaced hright).bind
          (fun es' s₂ h₂ => Runs.pure ((h₁.append h₂).imp id fun row f hf herror => ?_)) fun _ => id
        exact ⟨f, List.mem_cons_of_mem _ hf, herror⟩
      · obtain ⟨heq, he, hes⟩ := rewriteArgs_cons hplaced hlambda
        rw [heq]
        refine (rewrite_spec hengine h hwell.1 he hleft).bind (fun e' s₁ h₁ => ?_) fun _ => id
        exact (rewriteArgs_spec hengine h₁.inv hwell.2 hes hright).bind
          (fun es' s₂ h₂ => Runs.pure (h₁.append h₂)) fun _ => id

end

end JoinFilterRewriter

end Verax.JoinFilters
