import Mathlib.Data.List.Forall2
import Verax.Filters.Rewriting

/-!
# Simplification keeps values

Each rule of `simplify` gives an expression that stands for the one it is applied to, and so does a
run of them to any depth.

* `rewrites_tryFoldConjunct`, `rewrites_tryFoldConstant`, `rewrites_simplifyConditional`,
  `rewrites_simplifyArgs`, `rewrites_tryFoldRowField`, `rewrites_tryExpandRowEquality`: the rules.
* `rewrites_simplify`: simplification to any depth.
-/

namespace Verax.Filters

open Lib

variable {engine : Engine} {registry : Registry}

/-! ### Literal arguments of AND and OR -/

/-- Truth values that are the neutral one make no difference. -/
lemma junction_filter {α : Type} {name : FunctionName} (h : name = .and ∨ name = .or)
    {p : α → Bool} {f : α → Truth} {l : List α}
    (hdrop : ∀ a ∈ l, p a = false → f a = some (decide (name = .and))) :
    junction name ((l.filter p).map f) = junction name (l.map f) := by
  have hneutral := junction_eq_neutral h (l := (l.filter p).map f)
  have hneutral' := junction_eq_neutral h (l := l.map f)
  have hdeciding := junction_eq_deciding h (l := (l.filter p).map f)
  have hdeciding' := junction_eq_deciding h (l := l.map f)
  have h₁ : junction name ((l.filter p).map f) = some (decide (name = .and)) ↔
      junction name (l.map f) = some (decide (name = .and)) := by
    rw [hneutral, hneutral', List.forall_mem_map, List.forall_mem_map]
    refine ⟨fun hall a ha => ?_, fun hall a ha => hall a (List.mem_of_mem_filter ha)⟩
    cases hp : p a with
    | false => exact hdrop a ha hp
    | true => exact hall a (List.mem_filter.mpr ⟨ha, hp⟩)
  have h₂ : junction name ((l.filter p).map f) = some (decide (name ≠ .and)) ↔
      junction name (l.map f) = some (decide (name ≠ .and)) := by
    rw [hdeciding, hdeciding', List.mem_map, List.mem_map]
    refine ⟨fun ⟨a, ha, hf⟩ => ⟨a, List.mem_of_mem_filter ha, hf⟩, fun ⟨a, ha, hf⟩ => ⟨a, ?_, hf⟩⟩
    refine List.mem_filter.mpr ⟨ha, ?_⟩
    by_contra hp
    have hna := hdrop a ha (by simpa using hp)
    rw [hna] at hf
    simp at hf
  rcases h with rfl | rfl
  · exact Truth.ext (by simpa using h₁) (by simpa using h₂)
  · exact Truth.ext (by simpa using h₂) (by simpa using h₁)

lemma constantBoolean_eq_some {e : Expr} {b : Bool} (h : constantBoolean e = some b) :
    ∃ type, e = .literal (.boolean b) type := by
  unfold constantBoolean at h
  split at h
  case h_1 value type =>
    cases h
    exact ⟨type, rfl⟩
  case h_2 => cases h

lemma truth_of_constantBoolean {e : Expr} {b : Bool} (h : constantBoolean e = some b) (row : Row) :
    (engine.eval row e).truth = some b := by
  obtain ⟨type, rfl⟩ := constantBoolean_eq_some h
  rw [Engine.eval, Value.truth_conform]
  rfl

lemma rewrites_tryFoldConjunct (hsound : registry.Sound engine) {e : Expr} (h : e.Typed) :
    Rewrites engine e (tryFoldConjunct registry e) := by
  unfold tryFoldConjunct
  split
  case h_2 => exact .refl h
  case h_1 name args type =>
    split
    case isFalse => exact .refl h
    case isTrue hname =>
      obtain ⟨hlocal, hargs⟩ := typed_call.mp h
      have hboolean : type = .boolean ∧ ∀ a ∈ args.toList, a.type = .boolean := by
        rcases hname with rfl | rfl
        · exact ⟨hlocal.1, fun a ha => hlocal.2 _ (List.mem_map_of_mem ha)⟩
        · exact ⟨hlocal.1, fun a ha => hlocal.2 _ (List.mem_map_of_mem ha)⟩
      obtain ⟨rfl, hboolean⟩ := hboolean
      have hcondition : ∀ a ∈ args.toList, Condition a := fun a ha => ⟨hargs a ha, hboolean a ha⟩
      have hbacked : ∀ a ∈ args.toList, a.backed ⊆ (Expr.call name args .boolean).backed :=
        fun a ha n hn => mem_backed_call.mpr (.inr ⟨a, ha, hn⟩)
      have htruth : ∀ row, (engine.eval row (.call name args .boolean)).truth =
          junction name (args.toList.map fun a => (engine.eval row a).truth) := by
        intro row
        rw [Engine.eval_call, Value.truth_conform, truth_junction hname, List.map_map]
        rfl
      refine Stands.rewrites ⟨h, rfl⟩ ?_
      split
      case h_1 deciding hfind =>
        have hmem := List.mem_of_find?_eq_some hfind
        have hconstant : constantBoolean deciding = some (decide (name ≠ .and)) := by
          simpa using List.find?_some hfind
        refine ⟨hcondition _ hmem, fun row => ?_, hbacked _ hmem⟩
        rw [htruth, truth_of_constantBoolean hconstant, eq_comm, junction_eq_deciding hname]
        exact List.mem_map.mpr ⟨deciding, hmem, truth_of_constantBoolean hconstant row⟩
      case h_2 hfind =>
        -- What is dropped is neutral: a literal that decides was not found.
        have hdrop : ∀ row, ∀ a ∈ args.toList, (constantBoolean a).isNone = false →
            (engine.eval row a).truth = some (decide (name = .and)) := by
          intro row a ha hsome
          obtain ⟨b, hb⟩ := Option.isSome_iff_exists.mp (by simpa using hsome)
          have hne : b ≠ decide (name ≠ .and) := by
            rintro rfl
            exact absurd hb (by simpa using List.find?_eq_none.mp hfind a ha)
          have hb' : b = decide (name = .and) := by
            cases b <;> simp_all
          rw [truth_of_constantBoolean hb, hb']
        have hremaining : ∀ row, junction name ((args.toList.filter fun arg =>
            (constantBoolean arg).isNone).map fun a => (engine.eval row a).truth) =
            (engine.eval row (.call name args .boolean)).truth := by
          intro row
          rw [htruth, junction_filter hname (hdrop row)]
        dsimp only
        split
        case isTrue => exact ⟨⟨h, rfl⟩, fun _ => rfl, List.Subset.refl _⟩
        case isFalse =>
          have hmem : ∀ a, a ∈ (args.toList.filter fun arg => (constantBoolean arg).isNone) →
              a ∈ args.toList := fun a ha => List.mem_of_mem_filter ha
          revert hremaining hmem
          generalize (args.toList.filter fun arg => (constantBoolean arg).isNone) = remaining
          intro hremaining hmem
          split
          case h_1 =>
            refine ⟨⟨trivial, rfl⟩, fun row => ?_, by simp [makeBoolean, Expr.backed, SqlType.backed]⟩
            rw [← hremaining]
            rcases hname with rfl | rfl <;> rfl
          case h_2 arg =>
            have harg := hmem arg List.mem_cons_self
            refine ⟨hcondition _ harg, fun row => ?_, hbacked _ harg⟩
            rw [← hremaining]
            rcases hname with rfl | rfl <;> simp [junction]
          case h_3 =>
            have hall : ∀ t ∈ remaining.map Expr.type, t = .boolean := by
              intro t ht
              obtain ⟨a, ha, rfl⟩ := List.mem_map.mp ht
              exact hboolean a (hmem a ha)
            have htyped : name.Typed (remaining.map Expr.type) .boolean := by
              rcases hname with rfl | rfl
              · exact ⟨rfl, hall⟩
              · exact ⟨rfl, hall⟩
            have hr := stands_makeCall hsound htyped (fun a ha => hargs a (hmem a ha))
              (fun a ha => hbacked a (hmem a ha))
            refine ⟨hr.condition, fun row => ?_, hr.backed⟩
            rw [hr.truth, truth_junction hname, List.map_map, ← hremaining]
            rfl

/-! ### Constants -/

lemma rewrites_literal (hsound : registry.Sound engine) {e : Expr} {value : Value}
    (hcolumns : e.columns = []) (h : registry.constant e = some value) :
    Rewrites engine e (.literal value e.type) where
  eval row := by rw [Engine.eval, hsound.constant e value hcolumns h]
  type := rfl
  typed := trivial
  backed := by simpa [Expr.backed] using backed_type e

lemma rewrites_makeNull {e : Expr} (h : ∀ row, engine.eval row e = .null) :
    Rewrites engine e (makeNull e.type) where
  eval row := by rw [makeNull, Engine.eval, Value.conform_null, h]
  type := rfl
  typed := trivial
  backed := by simpa [makeNull, Expr.backed] using backed_type e

lemma eval_of_isConstantNull {e : Expr} (h : e.isConstantNull = true) (row : Row) :
    engine.eval row e = .null := by
  unfold Expr.isConstantNull at h
  split at h
  · rw [Engine.eval, Value.conform_null]
  · cases h

lemma rewrites_tryFoldConstant (hsound : registry.Sound engine) {e : Expr} (h : e.Typed) :
    Rewrites engine e (tryFoldConstant registry e) := by
  have hfold : ∀ {e e' : Expr}, e.Typed →
      (e' = e ∨ ∃ value, e.columns = [] ∧ registry.constant e = some value ∧
        e' = .literal value e.type) → Rewrites engine e e' := by
    rintro e e' h (rfl | ⟨value, hcolumns, hvalue, rfl⟩)
    · exact .refl h
    · exact rewrites_literal hsound hcolumns hvalue
  cases e with
  | literal value type => exact .refl h
  | column c =>
      refine hfold h ?_
      simp only [tryFoldConstant]
      split
      · next hcolumns =>
        split
        · next value hvalue => exact .inr ⟨value, hcolumns, hvalue, rfl⟩
        · exact .inl rfl
      · exact .inl rfl
  | field base name type =>
      refine hfold h ?_
      simp only [tryFoldConstant]
      split
      · next hcolumns =>
        split
        · next value hvalue => exact .inr ⟨value, hcolumns, hvalue, rfl⟩
        · exact .inl rfl
      · exact .inl rfl
  | call name args type =>
      rw [tryFoldConstant]
      split
      case isFalse =>
        refine hfold h ?_
        split
        · next hcolumns =>
          split
          · next value hvalue => exact .inr ⟨value, hcolumns, hvalue, rfl⟩
          · exact .inl rfl
        · exact .inl rfl
      case isTrue hnull =>
        simp only [Bool.and_eq_true, Bool.not_eq_true', List.any_eq_true] at hnull
        obtain ⟨⟨hspecial, hdefault⟩, a, ha, hanull⟩ := hnull
        refine rewrites_makeNull (e := .call name args type) fun row => ?_
        have hmem : Value.null ∈ args.toList.map (engine.eval row) :=
          List.mem_map.mpr ⟨a, ha, eval_of_isConstantNull hanull row⟩
        rw [Engine.eval_call, hsound.nulls name hspecial hdefault _ _ _ hmem, Value.conform_null]

/-! ### Branches of IF and SWITCH -/

section

variable {simplify : Expr → Expr}

lemma truth_eq_true {value : Value} : value.truth = some true ↔ value = .boolean true := by
  cases value <;> simp [Value.truth]

/-- The branches left select what the branches given do. -/
lemma select_liveBranches (hs : ∀ a : Expr, a.Typed → Rewrites engine a (simplify a)) (row : Row) :
    (args : List Expr) → (∀ a ∈ args, a.Typed) →
      Engine.select (args.map (engine.eval row)) =
        Engine.select ((liveBranches simplify args).1.map (engine.eval row) ++
          [((liveBranches simplify args).2.map (engine.eval row)).getD .null])
  | [], _ => rfl
  | [last], h => by
      simp [liveBranches, Engine.select, (hs last (h last List.mem_cons_self)).eval]
  | condition :: result :: rest, h => by
      have hcondition := (hs condition (h condition List.mem_cons_self)).eval row
      have hresult := (hs result (h result (by simp))).eval row
      have ih := select_liveBranches hs row rest fun a ha => h a (by simp [ha])
      rw [List.map_cons, List.map_cons, liveBranches]
      split
      case h_1 value type hliteral =>
        rw [Engine.select]
        have htruth : (engine.eval row condition).truth = value.truth := by
          rw [← hcondition, hliteral, Engine.eval, Value.truth_conform]
        rw [htruth]
        by_cases hvalue : value = .boolean true
        · rw [if_pos hvalue, if_pos (truth_eq_true.mpr hvalue)]
          simp [Engine.select, hresult]
        · rw [if_neg hvalue, if_neg fun h => hvalue (truth_eq_true.mp h)]
          exact ih
      case h_2 =>
        simp only [List.map_cons, List.cons_append, Engine.select, hcondition, hresult]
        split
        · rfl
        · exact ih

/-- The branches left are branches given, simplified. -/
lemma mem_liveBranches {a : Expr} : {args : List Expr} →
    a ∈ (liveBranches simplify args).1 ∨ a ∈ (liveBranches simplify args).2 →
      ∃ b ∈ args, a = simplify b
  | [], h => by simp [liveBranches] at h
  | [last], h => by
      simp only [liveBranches, List.not_mem_nil, false_or, Option.mem_some_iff] at h
      exact ⟨last, List.mem_cons_self, h.symm⟩
  | condition :: result :: rest, h => by
      have ih : a ∈ (liveBranches simplify rest).1 ∨ a ∈ (liveBranches simplify rest).2 →
          ∃ b ∈ condition :: result :: rest, a = simplify b := fun h => by
        obtain ⟨b, hb, heq⟩ := mem_liveBranches h
        exact ⟨b, by simp [hb], heq⟩
      rw [liveBranches] at h
      split at h
      case h_1 =>
        split at h
        · simp only [List.not_mem_nil, false_or, Option.mem_some_iff] at h
          exact ⟨result, by simp, h.symm⟩
        · exact ih h
      case h_2 =>
        simp only [List.mem_cons] at h
        rcases h with (rfl | rfl | h) | h
        · exact ⟨condition, by simp, rfl⟩
        · exact ⟨result, by simp, rfl⟩
        · exact ih (.inl h)
        · exact ih (.inr h)

/-- The results left have types of results given. -/
lemma resultTypes_liveBranches (hs : ∀ a : Expr, a.Typed → Rewrites engine a (simplify a)) :
    (args : List Expr) → (∀ a ∈ args, a.Typed) → ∀ {last t : SqlType},
      t ∈ resultTypes ((liveBranches simplify args).1.map Expr.type ++ [last]) →
      t ∈ resultTypes (args.map Expr.type) ∨ t = last
  | [], _, last, t, ht => by
      simp only [liveBranches, List.map_nil, List.nil_append, resultTypes, List.mem_singleton] at ht
      exact .inr ht
  | [_], _, last, t, ht => by
      simp only [liveBranches, List.map_nil, List.nil_append, resultTypes, List.mem_singleton] at ht
      exact .inr ht
  | condition :: result :: rest, h, last, t, ht => by
      have ih : t ∈ resultTypes ((liveBranches simplify rest).1.map Expr.type ++ [last]) →
          t ∈ resultTypes (rest.map Expr.type) ∨ t = last :=
        resultTypes_liveBranches hs rest fun a ha => h a (by simp [ha])
      rw [List.map_cons, List.map_cons, resultTypes, List.mem_cons]
      rw [liveBranches] at ht
      split at ht
      case h_1 =>
        split at ht
        · simp only [List.map_nil, List.nil_append, resultTypes, List.mem_singleton] at ht
          exact .inr ht
        · exact (ih ht).imp_left .inr
      case h_2 =>
        rw [List.map_cons, List.map_cons, List.cons_append, List.cons_append, resultTypes,
          List.mem_cons] at ht
        rcases ht with rfl | ht
        · exact .inl (.inl (hs result (h result (by simp))).type)
        · exact (ih ht).imp_left .inr

lemma type_last_liveBranches (hs : ∀ a : Expr, a.Typed → Rewrites engine a (simplify a)) :
    (args : List Expr) → (∀ a ∈ args, a.Typed) → ∀ {last : Expr},
      last ∈ (liveBranches simplify args).2 → last.type ∈ resultTypes (args.map Expr.type)
  | [], _, last, hlast => by simp [liveBranches] at hlast
  | [e], h, last, hlast => by
      simp only [liveBranches, Option.mem_some_iff] at hlast
      subst hlast
      simp [resultTypes, (hs e (h e List.mem_cons_self)).type]
  | condition :: result :: rest, h, last, hlast => by
      have ih : last ∈ (liveBranches simplify rest).2 →
          last.type ∈ resultTypes (rest.map Expr.type) :=
        type_last_liveBranches hs rest fun a ha => h a (by simp [ha])
      rw [List.map_cons, List.map_cons, resultTypes, List.mem_cons]
      rw [liveBranches] at hlast
      split at hlast
      case h_1 =>
        split at hlast
        · rw [Option.mem_some_iff] at hlast
          subst hlast
          exact .inl (hs result (h result (by simp))).type
        · exact .inr (ih hlast)
      case h_2 => exact .inr (ih hlast)

lemma rewrites_simplifyConditional (hsound : registry.Sound engine)
    (hs : ∀ a : Expr, a.Typed → Rewrites engine a (simplify a)) {name : FunctionName}
    (hname : name = .if ∨ name = .switch) {args : List Expr} {type : SqlType}
    (h : (Expr.apply name args type).Typed) :
    Rewrites engine (.apply name args type)
      (simplifyConditional registry simplify name args type) := by
  obtain ⟨hlocal, hargs⟩ := typed_apply.mp h
  have hresults : ∀ t ∈ resultTypes (args.map Expr.type), t = type := by
    rcases hname with rfl | rfl <;> exact hlocal
  have hselect : ∀ row args, engine.eval row (.apply name args type) =
      .conform type (Engine.select (args.map (engine.eval row))) := by
    intro row args
    rw [Engine.eval_apply]
    rcases hname with rfl | rfl <;> simp [Engine.apply]
  -- The result for the other rows, NULL where none is given.
  set last := (liveBranches simplify args).2.getD (makeNull type) with hlast
  have hlastMem : last ∈ (liveBranches simplify args).2 ∨ last = makeNull type := by
    cases hopt : (liveBranches simplify args).2 with
    | none => exact .inr (by simp [hlast, hopt])
    | some e => exact .inl (by simp [hlast, hopt])
  have hlastEval : ∀ row, engine.eval row last =
      ((liveBranches simplify args).2.map (engine.eval row)).getD .null := by
    intro row
    cases hopt : (liveBranches simplify args).2 with
    | none => simp [hlast, hopt, makeNull, Engine.eval, Value.conform_null]
    | some e => simp [hlast, hopt]
  have hlastType : last.type = type := by
    rcases hlastMem with hmem | heq
    · exact hresults _ (type_last_liveBranches hs args hargs hmem)
    · rw [heq]
      rfl
  have hmem : ∀ a ∈ (liveBranches simplify args).1 ++ [last],
      a.Typed ∧ a.backed ⊆ (Expr.apply name args type).backed := by
    intro a ha
    have hsource : (∃ b ∈ args, a = simplify b) ∨ a = makeNull type := by
      rcases List.mem_append.mp ha with ha | ha
      · exact .inl (mem_liveBranches (.inl ha))
      · rw [List.mem_singleton.mp ha]
        exact hlastMem.imp_left fun h => mem_liveBranches (.inr h)
    rcases hsource with ⟨b, hb, rfl⟩ | rfl
    · have hr := hs b (hargs b hb)
      exact ⟨hr.typed, fun n hn => mem_backed_apply.mpr (.inr ⟨b, hb, hr.backed hn⟩)⟩
    · exact ⟨trivial, fun n hn => mem_backed_apply.mpr (.inl (by simpa [makeNull, Expr.backed] using hn))⟩
  have heval : ∀ row, engine.eval row (.apply name args type) =
      .conform type (Engine.select
        (((liveBranches simplify args).1 ++ [last]).map (engine.eval row))) := by
    intro row
    rw [hselect, select_liveBranches hs row args hargs, List.map_append, List.map_singleton,
      hlastEval]
  unfold simplifyConditional
  rw [← hlast]
  split
  case h_1 hnil =>
    rw [hnil] at heval
    refine ⟨fun row => ?_, hlastType, (hmem last (by simp)).1, (hmem last (by simp)).2⟩
    rw [heval, ← hlastType]
    exact (engine.conform_eval row last).symm
  case h_2 =>
    have htyped : (Expr.apply name ((liveBranches simplify args).1 ++ [last]) type).Typed := by
      refine typed_apply.mpr ⟨?_, fun a ha => (hmem a ha).1⟩
      have hall : ∀ t ∈ resultTypes (((liveBranches simplify args).1 ++ [last]).map Expr.type),
          t = type := by
        intro t ht
        rw [List.map_append, List.map_singleton] at ht
        rcases resultTypes_liveBranches hs args hargs ht with ht | rfl
        · exact hresults t ht
        · exact hlastType
      rcases hname with rfl | rfl <;> exact hall
    have hcall := rewrites_makeCall hsound htyped
    refine ⟨fun row => ?_, hcall.type, hcall.typed, fun n hn => ?_⟩
    · rw [hcall.eval, hselect, heval]
    · rcases mem_backed_apply.mp (hcall.backed hn) with hn | ⟨a, ha, hn⟩
      · exact mem_backed_apply.mpr (.inl hn)
      · exact (hmem a ha).2 hn

/-! ### Arguments of calls -/

lemma forall₂_map_simplify (hs : ∀ a : Expr, a.Typed → Rewrites engine a (simplify a))
    {args : List Expr} (hargs : ∀ a ∈ args, a.Typed) :
    List.Forall₂ (Rewrites engine) args (args.map simplify) := by
  rw [List.forall₂_map_right_iff, List.forall₂_same]
  exact fun a ha => hs a (hargs a ha)

/-- A NULL never supplies the result of a COALESCE. -/
lemma firstNonNull_filter (row : Row) (args : List Expr) :
    ((args.filter fun arg => !arg.isConstantNull).map (engine.eval row)).find? (· ≠ .null) =
      (args.map (engine.eval row)).find? (· ≠ .null) := by
  induction args with
  | nil => rfl
  | cons a args ih =>
      cases hnull : a.isConstantNull with
      | true =>
          rw [List.filter_cons_of_neg (by simp [hnull]), ih, List.map_cons,
            eval_of_isConstantNull hnull, List.find?_cons_of_neg (by simp)]
      | false =>
          rw [List.filter_cons_of_pos (by simp [hnull]), List.map_cons, List.map_cons,
            List.find?_cons, List.find?_cons, ih]

lemma rewrites_coalesce (hsound : registry.Sound engine)
    (hs : ∀ a : Expr, a.Typed → Rewrites engine a (simplify a)) {args : List Expr} {type : SqlType}
    (h : (Expr.apply .coalesce args type).Typed) :
    Rewrites engine (.apply .coalesce args type)
      (simplifyArgs registry simplify .coalesce args type) := by
  obtain ⟨hlocal, hargs⟩ := typed_apply.mp h
  have hsimplified := rewrites_apply hlocal (forall₂_map_simplify hs hargs)
  obtain ⟨hlocal', hargs'⟩ := typed_apply.mp hsimplified.typed
  have hmem : ∀ a ∈ (args.map simplify).filter fun arg => !arg.isConstantNull,
      a ∈ args.map simplify := fun a ha => List.mem_of_mem_filter ha
  have hvalue : ∀ row, engine.eval row (.apply .coalesce args type) =
      .conform type ((((args.map simplify).filter fun arg => !arg.isConstantNull).map
        (engine.eval row)).find? (· ≠ .null) |>.getD .null) := by
    intro row
    rw [← hsimplified.eval, Engine.eval_apply, firstNonNull_filter, Engine.apply]
  rw [simplifyArgs, if_pos rfl]
  revert hmem hvalue
  generalize ((args.map simplify).filter fun arg => !arg.isConstantNull) = kept
  intro hmem hvalue
  split
  case h_1 =>
    refine rewrites_makeNull (e := .apply .coalesce args type) fun row => ?_
    rw [hvalue]
    exact Value.conform_null type
  case h_2 arg =>
    have harg := hmem arg List.mem_cons_self
    have htype : arg.type = type := hlocal' _ (List.mem_map_of_mem harg)
    refine ⟨fun row => ?_, htype, hargs' arg harg, fun n hn => ?_⟩
    · rw [hvalue, ← htype, ← engine.conform_eval row arg]
      by_cases hnull : engine.eval row arg = .null
      · simp [hnull]
      · simp [hnull]
    · exact hsimplified.backed (mem_backed_apply.mpr (.inr ⟨arg, harg, hn⟩))
  case h_3 =>
    split
    case isTrue => exact .refl h
    case isFalse =>
      have hlocal'' : FunctionName.coalesce.Typed (kept.map Expr.type) type := by
        intro t ht
        obtain ⟨a, ha, rfl⟩ := List.mem_map.mp ht
        exact hlocal' _ (List.mem_map_of_mem (hmem a ha))
      have hcall := rewrites_makeCall hsound
        (typed_apply.mpr ⟨hlocal'', fun a ha => hargs' a (hmem a ha)⟩)
      refine ⟨fun row => ?_, hcall.type, hcall.typed, fun n hn => hsimplified.backed ?_⟩
      · rw [hcall.eval, hvalue, Engine.eval_apply, Engine.apply]
      · refine mem_backed_apply.mpr ((mem_backed_apply.mp (hcall.backed hn)).imp_right ?_)
        rintro ⟨a, ha, hn⟩
        exact ⟨a, hmem a ha, hn⟩

lemma literalsOfType_eq_some {type : SqlType} : {args : List Expr} → {values : List Value} →
    literalsOfType type args = some values → args = values.map fun value => .literal value type
  | [], values, h => by
      cases h
      rfl
  | .literal value literalType :: args, values, h => by
      rw [literalsOfType] at h
      split at h
      case isFalse => cases h
      case isTrue htype =>
        obtain ⟨rest, hrest, rfl⟩ := Option.map_eq_some_iff.mp h
        rw [List.map_cons, htype, ← literalsOfType_eq_some hrest]
  | .column _ :: _, _, h => by cases h
  | .field _ _ _ :: _, _, h => by cases h
  | .call _ _ _ :: _, _, h => by cases h

/-- A literal of the type of the value compared with is no array of such values. -/
lemma SqlType.ne_array (type : SqlType) : type ≠ .array type := by
  intro h
  have := congrArg sizeOf h
  simp at this

/-- The elements of an IN over literals. -/
lemma inElements_literals {type : SqlType} {elements : List Value} :
    Engine.inElements (type :: elements.map fun _ => type) elements = some elements := by
  match elements with
  | [] => rfl
  | [element] => simp [Engine.inElements, SqlType.ne_array]
  | _ :: _ :: _ => rfl

/-- An IN over literals is a comparison with their values. -/
lemma rewrites_literalIn (hsound : registry.Sound engine) {args : List Expr} {value : Expr}
    {values : List Value} (h : (Expr.apply .in args .boolean).Typed)
    (hliterals : literalInValues args = some (value, values)) :
    Rewrites engine (.apply .in args .boolean) (makeIn registry value values) := by
  unfold literalInValues at hliterals
  split at hliterals
  case h_2 => cases hliterals
  case h_1 value' first rest =>
    obtain ⟨values', hvalues, heq⟩ := Option.map_eq_some_iff.mp hliterals
    obtain ⟨rfl, rfl⟩ := Prod.mk.inj heq
    rw [literalsOfType_eq_some hvalues] at h ⊢
    obtain ⟨-, hargs⟩ := typed_apply.mp h
    have hbacked : value'.backed ⊆ (Expr.apply .in
        (value' :: values'.map fun value => .literal value value'.type) .boolean).backed :=
      fun n hn => mem_backed_apply.mpr (.inr ⟨value', List.mem_cons_self, hn⟩)
    refine Stands.rewrites ⟨h, rfl⟩ ?_
    have hin := stands_makeIn hsound values' (hargs value' List.mem_cons_self) hbacked
    refine ⟨hin.condition, fun row => ?_, hin.backed⟩
    have hevals : values'.map (engine.eval row ∘ fun value => .literal value value'.type) =
        values'.map (Value.conform value'.type) :=
      List.map_congr_left fun v _ => by rw [Function.comp_apply, Engine.eval]
    have htypes : (values'.map (Expr.type ∘ fun value => .literal value value'.type)) =
        (values'.map (Value.conform value'.type)).map fun _ => value'.type := by
      rw [List.map_map]
      rfl
    rw [hin.truth, Engine.eval_apply, Value.truth_conform, List.map_cons, List.map_cons,
      List.map_map, List.map_map, hevals, htypes, Engine.apply, Value.truth_ofTruth,
      inElements_literals]
    rfl

lemma rewrites_simplifyArgs (hsound : registry.Sound engine)
    (hs : ∀ a : Expr, a.Typed → Rewrites engine a (simplify a)) {name : FunctionName}
    {args : List Expr} {type : SqlType} (h : (Expr.apply name args type).Typed) :
    Rewrites engine (.apply name args type) (simplifyArgs registry simplify name args type) := by
  by_cases hcoalesce : name = .coalesce
  · subst hcoalesce
    exact rewrites_coalesce hsound hs h
  · obtain ⟨hlocal, hargs⟩ := typed_apply.mp h
    have hsimplified := rewrites_apply hlocal (forall₂_map_simplify hs hargs)
    rw [simplifyArgs, if_neg hcoalesce]
    split
    case h_1 value values hliterals =>
      split at hliterals
      case isFalse => cases hliterals
      case isTrue hin =>
        subst hin
        obtain rfl : type = .boolean := hlocal
        exact hsimplified.trans (rewrites_literalIn hsound hsimplified.typed hliterals)
    case h_2 =>
      split
      case isTrue => exact .refl h
      case isFalse => exact hsimplified.trans (rewrites_makeCall hsound hsimplified.typed)

end

/-! ### Rows -/

lemma rewrites_tryFoldRowField {e field : Expr} (h : e.Typed)
    (hfold : tryFoldRowField e = some field) : Rewrites engine e field := by
  unfold tryFoldRowField at hfold
  split at hfold
  case h_2 => cases hfold
  case h_1 index args rowType type =>
    obtain ⟨⟨fields, htypes, hfield⟩, hrow⟩ := typed_call.mp h
    obtain ⟨hrowType, hargs⟩ := typed_call.mp (hrow _ List.mem_cons_self)
    have hmem : field ∈ args.toList := List.mem_of_getElem? hfold
    have htype : field.type = type := by
      have hfields : rowType = .row fields := by simpa [Exprs.toList, Expr.type] using htypes
      rw [hfields] at hrowType
      injection hrowType with hrowType
      rw [hrowType, SqlTypes.toList_ofList, List.getElem?_map, hfold] at hfield
      simpa using hfield
    refine ⟨fun row => ?_, htype, hargs field hmem, fun n hn => ?_⟩
    · have hvalue : (args.toList.map (engine.eval row)).getD index .null = engine.eval row field := by
        rw [List.getD_eq_getElem?_getD, List.getElem?_map, hfold]
        rfl
      have hconform : ∀ value, Value.conform rowType (.list value) = .list value := by
        intro value
        rw [show rowType = _ from hrowType]
        rfl
      rw [Engine.eval_call]
      simp only [Exprs.toList, List.map_cons, List.map_nil, Engine.eval_call]
      simp only [Engine.apply, hconform, Values.toList_ofList, hvalue]
      rw [← htype, engine.conform_eval]
    · refine mem_backed_call.mpr (.inr ⟨_, List.mem_cons_self, mem_backed_call.mpr (.inr ?_)⟩)
      exact ⟨field, hmem, hn⟩

/-- The equalities of the fields say what the equality of the row does. -/
lemma all_fieldEqualities (hsound : registry.Sound engine) (row : Row) :
    {fields : List Expr} → {values : Values} → {types : SqlTypes} →
      sameLength fields values types = true → fields.map Expr.type = types.toList →
      (∀ field ∈ fields, field.Typed) →
      engine.equalFields types (.ofList (fields.map (engine.eval row))) values =
        .all ((fieldEqualities registry fields values types).map fun e => (engine.eval row e).truth)
  | [], .nil, .nil, _, _, _ => by simp [Engine.equalFields, fieldEqualities]
  | field :: fields, .cons value values, .cons type types, hlength, htypes, htyped => by
      obtain ⟨rfl, hrest⟩ : field.type = type ∧ fields.map Expr.type = types.toList := by
        simpa [SqlTypes.toList] using htypes
      have hlength' : sameLength fields values types = true := hlength
      have hliteral : (Expr.literal value field.type).Typed := trivial
      have hfield := stands_makeComparison hsound (.inl rfl) (htyped field List.mem_cons_self)
        hliteral rfl (List.subset_append_left _ _) (List.subset_append_right field.backed _)
      rw [List.map_cons, Values.ofList, Engine.equalFields, fieldEqualities, List.map_cons,
        Truth.all_cons, hfield.truth, engine.conform_eval, Engine.eval,
        all_fieldEqualities hsound row hlength' hrest fun f hf =>
          htyped f (List.mem_cons_of_mem _ hf)]
  | [], .nil, .cons _ _, h, _, _ => by cases h
  | [], .cons _ _, _, h, _, _ => by cases h
  | _ :: _, .nil, _, h, _, _ => by cases h
  | _ :: _, .cons _ _, .nil, h, _, _ => by cases h

/-- The equalities of the fields are conditions over the types of the row. -/
lemma condition_fieldEqualities (hsound : registry.Sound engine) {names : List String} :
    {fields : List Expr} → {values : Values} → {types : SqlTypes} →
      fields.map Expr.type = types.toList →
      (∀ field ∈ fields, field.Typed ∧ field.backed ⊆ names) →
      ∀ e ∈ fieldEqualities registry fields values types, Condition e ∧ e.backed ⊆ names
  | [], _, _, _, _, e, he => by simp [fieldEqualities] at he
  | _ :: _, .nil, _, _, _, e, he => by simp [fieldEqualities] at he
  | _ :: _, .cons _ _, .nil, _, _, e, he => by simp [fieldEqualities] at he
  | field :: fields, .cons value values, .cons type types, htypes, htyped, e, he => by
      obtain ⟨rfl, hrest⟩ : field.type = type ∧ fields.map Expr.type = types.toList := by
        simpa [SqlTypes.toList] using htypes
      obtain ⟨hfield, hbacked⟩ := htyped field List.mem_cons_self
      have hliteral : (Expr.literal value field.type).Typed := trivial
      have hstands := stands_makeComparison hsound (.inl rfl) hfield hliteral rfl hbacked
        (List.Subset.trans (backed_type field) hbacked)
      rw [fieldEqualities, List.mem_cons] at he
      rcases he with rfl | he
      · exact ⟨hstands.condition, hstands.backed⟩
      · exact condition_fieldEqualities hsound hrest
          (fun f hf => htyped f (List.mem_cons_of_mem _ hf)) e he

lemma rewrites_tryExpandRowEquality (hsound : registry.Sound engine) {e equalities : Expr}
    (h : e.Typed) (hexpand : tryExpandRowEquality registry e = some equalities) :
    Rewrites engine e equalities := by
  unfold tryExpandRowEquality at hexpand
  split at hexpand
  case h_2 => cases hexpand
  case h_1 fields rowType values types type =>
    split at hexpand
    case isFalse => cases hexpand
    case isTrue hlength =>
      obtain ⟨⟨rfl, t, htypes⟩, hargs⟩ := typed_call.mp h
      obtain ⟨hrowType, hfields⟩ := typed_call.mp (hargs _ List.mem_cons_self)
      obtain ⟨rfl, rfl⟩ : rowType = t ∧ t = .row types := by
        simpa [Exprs.toList, Expr.type, eq_comm] using htypes
      have hfieldTypes : fields.toList.map Expr.type = types.toList := by
        injection hrowType with htypes
        rw [htypes, SqlTypes.toList_ofList]
      have hnames : ∀ field ∈ fields.toList, field.Typed ∧ field.backed ⊆
          (Expr.call .equality (.cons (.call .rowConstructor fields (.row types))
            (.cons (.literal (.list values) (.row types)) .nil)) .boolean).backed := by
        refine fun field hfield => ⟨hfields field hfield, fun n hn => ?_⟩
        refine mem_backed_call.mpr (.inr ⟨_, List.mem_cons_self, mem_backed_call.mpr (.inr ?_)⟩)
        exact ⟨field, hfield, hn⟩
      have hconditions := @condition_fieldEqualities _ _ hsound _ _ values _ hfieldTypes hnames
      have htruth : ∀ row, (engine.eval row (.call .equality
          (.cons (.call .rowConstructor fields (.row types))
            (.cons (.literal (.list values) (.row types)) .nil)) .boolean)).truth =
          .all ((fieldEqualities registry fields.toList values types).map
            fun e => (engine.eval row e).truth) := by
        intro row
        rw [← all_fieldEqualities hsound row hlength hfieldTypes hfields, Engine.eval_call,
          Value.truth_conform]
        simp only [Exprs.toList, List.map_cons, List.map_nil, Engine.eval, Engine.evalAll_eq]
        simp [Engine.apply, Engine.compareValues, Value.conform, Expr.type]
      revert hexpand hconditions htruth
      generalize fieldEqualities registry fields.toList values types = l
      intro hexpand hconditions htruth
      split at hexpand
      case h_1 => cases hexpand
      case h_2 first rest =>
        cases hexpand
        obtain ⟨hfirst, hbacked⟩ := hconditions first List.mem_cons_self
        have hall := stands_andAll hsound (hfirst.stands hbacked)
          fun e he => hconditions e (List.mem_cons_of_mem _ he)
        refine Stands.rewrites ⟨h, rfl⟩ ⟨hall.condition, fun row => ?_, hall.backed⟩
        rw [hall.truth, htruth, List.map_cons, Truth.all_cons]

/-! ### Simplification -/

/-- An expression rewrites to what simplification to any depth makes of it. -/
theorem rewrites_simplify (hsound : registry.Sound engine) (fuel : ℕ) :
    ∀ e : Expr, e.Typed → Rewrites engine e (simplify registry fuel e) := by
  induction fuel with
  | zero => exact fun e h => .refl h
  | succ fuel ih =>
      intro e h
      have hconstant : ∀ e : Expr, e.Typed →
          Rewrites engine e (tryFoldConjunct registry (tryFoldConstant registry e)) := by
        intro e h
        have hfold := rewrites_tryFoldConstant hsound h
        exact hfold.trans (rewrites_tryFoldConjunct hsound hfold.typed)
      have hfold : ∀ {e e' : Expr}, e.Typed →
          (∀ field, tryFoldRowField e = some field → e' = field) →
          (tryFoldRowField e = none → ∀ equalities,
            tryExpandRowEquality registry e = some equalities →
              e' = simplify registry fuel equalities) →
          (tryFoldRowField e = none → tryExpandRowEquality registry e = none →
            e' = tryFoldConjunct registry (tryFoldConstant registry e)) → Rewrites engine e e' := by
        intro e e' h hrow hexpanded hother
        cases hfield : tryFoldRowField e with
        | some field => exact hrow field hfield ▸ rewrites_tryFoldRowField h hfield
        | none =>
            cases hequalities : tryExpandRowEquality registry e with
            | some equalities =>
                have hexpand := rewrites_tryExpandRowEquality hsound h hequalities
                exact hexpanded hfield equalities hequalities ▸
                  hexpand.trans (ih equalities hexpand.typed)
            | none => exact hother hfield hequalities ▸ hconstant e h
      cases e with
      | column c =>
          exact hfold h (fun _ hfield => by simp only [simplify, hfield])
            (fun hfield _ heq => by simp only [simplify, hfield, heq])
            fun hfield heq => by simp only [simplify, hfield, heq]
      | literal value type =>
          exact hfold h (fun _ hfield => by simp only [simplify, hfield])
            (fun hfield _ heq => by simp only [simplify, hfield, heq])
            fun hfield heq => by simp only [simplify, hfield, heq]
      | field base name type =>
          exact hfold h (fun _ hfield => by simp only [simplify, hfield])
            (fun hfield _ heq => by simp only [simplify, hfield, heq])
            fun hfield heq => by simp only [simplify, hfield, heq]
      | call name args type =>
          have happly : (Expr.apply name args.toList type).Typed := by
            rwa [Expr.apply, Exprs.ofList_toList]
          have hcall : Expr.call name args type = .apply name args.toList type := by
            rw [Expr.apply, Exprs.ofList_toList]
          rw [simplify]
          dsimp only
          split
          case isTrue hname =>
            have hbranches := rewrites_simplifyConditional hsound ih hname happly
            rw [hcall]
            exact hbranches.trans (hconstant _ hbranches.typed)
          case isFalse =>
            have hargs := rewrites_simplifyArgs hsound ih happly
            rw [hcall]
            exact hargs.trans (hfold hargs.typed (fun _ hfield => by rw [hfield])
              (fun hfield _ heq => by rw [hfield, heq]) fun hfield heq => by rw [hfield, heq])

end Verax.Filters
