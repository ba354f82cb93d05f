import Verax.Filters.ExprSimplifier

/-!
# Rewriting keeps values

One expression rewrites to another when the two have the same value on every row and the same type.
The calls the simplifier builds are compared under the types SQL gives them, `Typed`, which rewriting
keeps, and no rewriting brings in a BIGINT-backed type, `backed`.

* `Registry.Sound`: what the session promises of its functions.
* `Rewrites`: same value, same type; `rewrites_apply`: rewriting under a call.
* `rewrites_makeCall`, `rewrites_makeIn`, `truth_andAll`: what the constructors build.
-/

namespace Verax.Filters

open Lib

/-! ### Types of calls -/

/-- The types of the results of an IF or SWITCH. -/
def resultTypes : List SqlType → List SqlType
  | _ :: result :: rest => result :: resultTypes rest
  | [last] => [last]
  | [] => []

/-- The types SQL gives a call, as far as the rules rely on them. No cast goes between a
BIGINT-backed type and another type of integers. -/
def FunctionName.Typed (name : FunctionName) (argTypes : List SqlType) (type : SqlType) : Prop :=
  match name with
  | and | or => type = .boolean ∧ ∀ t ∈ argTypes, t = .boolean
  | equality | lt | lte | gt | gte | distinctFrom => type = .boolean ∧ ∃ t, argTypes = [t, t]
  | between => type = .boolean ∧ ∃ t, argTypes = [t, t, t]
  | «in» => type = .boolean
  | cast | tryCast => ∀ t ∈ argTypes, t.isIntegral → type.isIntegral →
      t = type ∨ (t.isInteger ∧ type.isInteger)
  | «if» | switch => ∀ t ∈ resultTypes argTypes, t = type
  | coalesce => ∀ t ∈ argTypes, t = type
  | dereference index => ∃ fields, argTypes = [.row fields] ∧ fields.toList[index]? = some type
  | rowConstructor => type = .row (.ofList argTypes)
  | _ => True

mutual

/-- Every call has the types SQL gives it. -/
def Expr.Typed : Expr → Prop
  | .column _ => True
  | .literal _ _ => True
  | .field base _ _ => base.Typed
  | .call name args type => name.Typed (args.toList.map Expr.type) type ∧ args.Typed

def Exprs.Typed : Exprs → Prop
  | .nil => True
  | .cons head tail => head.Typed ∧ tail.Typed

end

lemma Exprs.typed_iff : (args : Exprs) → (args.Typed ↔ ∀ a ∈ args.toList, a.Typed)
  | .nil => by simp [Exprs.Typed, toList]
  | .cons head tail => by
      rw [Exprs.Typed, typed_iff tail, toList, List.forall_mem_cons]

lemma typed_call {name : FunctionName} {args : Exprs} {type : SqlType} :
    (Expr.call name args type).Typed ↔
      name.Typed (args.toList.map Expr.type) type ∧ ∀ a ∈ args.toList, a.Typed := by
  rw [Expr.Typed, Exprs.typed_iff]

lemma typed_apply {name : FunctionName} {args : List Expr} {type : SqlType} :
    (Expr.apply name args type).Typed ↔
      name.Typed (args.map Expr.type) type ∧ ∀ a ∈ args, a.Typed := by
  rw [Expr.apply, typed_call, Exprs.toList_ofList]

/-! ### BIGINT-backed types -/

mutual

/-- The BIGINT-backed types in a type. -/
def SqlType.backed : SqlType → List String
  | .bigintBacked name => [name]
  | .array element => element.backed
  | .row fields => fields.backed
  | _ => []

def SqlTypes.backed : SqlTypes → List String
  | .nil => []
  | .cons head tail => head.backed ++ tail.backed

end

mutual

/-- The BIGINT-backed types in an expression. -/
def Expr.backed : Expr → List String
  | .column c => c.type.backed
  | .literal _ type => type.backed
  | .field base _ type => base.backed ++ type.backed
  | .call _ args type => type.backed ++ args.backed

def Exprs.backed : Exprs → List String
  | .nil => []
  | .cons head tail => head.backed ++ tail.backed

end

lemma Exprs.mem_backed {n : String} : (args : Exprs) →
    (n ∈ args.backed ↔ ∃ a ∈ args.toList, n ∈ a.backed)
  | .nil => by simp [Exprs.backed, toList]
  | .cons head tail => by
      rw [Exprs.backed, List.mem_append, mem_backed tail, toList]
      simp

lemma mem_backed_call {n : String} {name : FunctionName} {args : Exprs} {type : SqlType} :
    n ∈ (Expr.call name args type).backed ↔
      n ∈ type.backed ∨ ∃ a ∈ args.toList, n ∈ a.backed := by
  rw [Expr.backed, List.mem_append, Exprs.mem_backed]

lemma mem_backed_apply {n : String} {name : FunctionName} {args : List Expr} {type : SqlType} :
    n ∈ (Expr.apply name args type).backed ↔
      n ∈ type.backed ∨ ∃ a ∈ args, n ∈ a.backed := by
  rw [Expr.apply, mem_backed_call, Exprs.toList_ofList]

/-- The type of an expression is among those it reads. -/
lemma backed_type : (e : Expr) → e.type.backed ⊆ e.backed
  | .column _ => by simp [Expr.type, Expr.backed]
  | .literal _ _ => by simp [Expr.type, Expr.backed]
  | .field base _ type => by simp [Expr.type, Expr.backed]
  | .call _ args type => by simp [Expr.type, Expr.backed]

/-! ### Promises of a session -/

/-- What a session promises of its functions: turning a call around turns its arguments around, a
function with default null behavior returns NULL for a NULL argument, and folding a constant
expression gives its value. -/
structure Registry.Sound (registry : Registry) (engine : Engine) : Prop where
  reverse : ∀ f g, registry.reversibleFunctions f = some g → ∀ t type a b,
    engine.apply f [t, t] type [a, b] = engine.apply g [t, t] type [b, a]
  reverse_typed : ∀ f g, registry.reversibleFunctions f = some g → ∀ t type,
    f.Typed [t, t] type → g.Typed [t, t] type
  nulls : ∀ f, f.isSpecialForm = false → registry.defaultNullBehavior f = true →
    ∀ types type args, Value.null ∈ args → engine.apply f types type args = .null
  constant : ∀ e value, e.columns = [] → registry.constant e = some value →
    ∀ row, engine.eval row e = .conform e.type value

/-! ### Rewriting -/

variable {engine : Engine} {registry : Registry}

variable (engine) in
/-- An expression stands for another: same value on every row, same type, and nothing new in it. -/
structure Rewrites (e e' : Expr) : Prop where
  eval : ∀ row, engine.eval row e' = engine.eval row e
  type : e'.type = e.type
  typed : e'.Typed
  backed : e'.backed ⊆ e.backed

namespace Rewrites

lemma refl {e : Expr} (h : e.Typed) : Rewrites engine e e :=
  ⟨fun _ => rfl, rfl, h, List.Subset.refl _⟩

lemma trans {a b c : Expr} (h : Rewrites engine a b) (h' : Rewrites engine b c) :
    Rewrites engine a c :=
  ⟨fun row => (h'.eval row).trans (h.eval row), h'.type.trans h.type, h'.typed,
    List.Subset.trans h'.backed h.backed⟩

end Rewrites

lemma map_eq_of_forall₂ {α β : Type} {R : α → α → Prop} {f : α → β}
    (hR : ∀ a b, R a b → f b = f a) {l l' : List α} (h : List.Forall₂ R l l') :
    l'.map f = l.map f := by
  induction h with
  | nil => rfl
  | cons hab _ ih => rw [List.map_cons, List.map_cons, hR _ _ hab, ih]

lemma exists_of_forall₂ {α : Type} {R : α → α → Prop} {l l' : List α} (h : List.Forall₂ R l l')
    {b : α} (hb : b ∈ l') : ∃ a ∈ l, R a b := by
  induction h with
  | nil => cases hb
  | @cons a b' l l' hab _ ih =>
      rcases List.mem_cons.mp hb with rfl | hb
      · exact ⟨a, List.mem_cons_self, hab⟩
      · obtain ⟨a', ha', hR⟩ := ih hb
        exact ⟨a', List.mem_cons_of_mem _ ha', hR⟩

/-- Rewriting the arguments of a call. -/
lemma rewrites_apply {name : FunctionName} {args args' : List Expr} {type : SqlType}
    (hname : name.Typed (args.map Expr.type) type) (h : List.Forall₂ (Rewrites engine) args args') :
    Rewrites engine (.apply name args type) (.apply name args' type) where
  eval row := by
    rw [Engine.eval_apply, Engine.eval_apply, map_eq_of_forall₂ (fun _ _ h => h.type) h,
      map_eq_of_forall₂ (fun _ _ h => h.eval row) h]
  type := rfl
  typed := by
    rw [typed_apply, map_eq_of_forall₂ (fun _ _ h => h.type) h]
    refine ⟨hname, fun a ha => ?_⟩
    obtain ⟨b, -, hb⟩ := exists_of_forall₂ h ha
    exact hb.typed
  backed := by
    intro n hn
    rw [mem_backed_apply] at hn ⊢
    refine hn.imp_right ?_
    rintro ⟨a, ha, hn⟩
    obtain ⟨b, hb, hab⟩ := exists_of_forall₂ h ha
    exact ⟨b, hb, hab.backed hn⟩

/-! ### AND and OR -/

/-- The truth value of an AND or an OR. -/
def junction (name : FunctionName) (l : List Truth) : Truth :=
  if name = .and then .all l else .any l

lemma truth_junction {name : FunctionName} (h : name = .and ∨ name = .or) (types : List SqlType)
    (type : SqlType) (args : List Value) :
    (engine.apply name types type args).truth = junction name (args.map Value.truth) := by
  rcases h with rfl | rfl <;> simp [Engine.apply, junction]

lemma junction_eq_neutral {name : FunctionName} (h : name = .and ∨ name = .or) {l : List Truth} :
    junction name l = some (decide (name = .and)) ↔ ∀ t ∈ l, t = some (decide (name = .and)) := by
  rcases h with rfl | rfl
  · simp [junction, Truth.all_eq_true]
  · simp [junction, Truth.any_eq_false]

lemma junction_eq_deciding {name : FunctionName} (h : name = .and ∨ name = .or) {l : List Truth} :
    junction name l = some (decide (name ≠ .and)) ↔ some (decide (name ≠ .and)) ∈ l := by
  rcases h with rfl | rfl
  · simp [junction, Truth.all_eq_false]
  · simp [junction, Truth.any_eq_true]

/-! ### What the constructors build -/

/-- Turning a call around. -/
lemma rewrites_makeCall (hsound : registry.Sound engine) {name : FunctionName} {args : List Expr}
    {type : SqlType} (h : (Expr.apply name args type).Typed) :
    Rewrites engine (.apply name args type) (makeCall registry name args type) := by
  unfold makeCall
  rcases args with - | ⟨left, - | ⟨right, - | ⟨third, rest⟩⟩⟩
  · exact .refl h
  · exact .refl h
  · rw [canonicalizeCall]
    split
    case h_2 => exact .refl h
    case h_1 reverse hreverse =>
      split
      case isFalse => exact .refl h
      case isTrue hinvert =>
        have htypes : left.type = right.type := by
          by_contra hne
          rw [shouldInvert, if_pos hne] at hinvert
          cases hinvert
        obtain ⟨hname, hargs⟩ := typed_apply.mp h
        simp only [List.map_cons, List.map_nil, htypes] at hname
        refine ⟨fun row => ?_, rfl, ?_, ?_⟩
        · rw [Engine.eval_apply, Engine.eval_apply]
          simp only [List.map_cons, List.map_nil, htypes]
          rw [hsound.reverse name reverse hreverse]
        · refine typed_apply.mpr ⟨?_, fun a ha => hargs a (by simpa [or_comm] using ha)⟩
          simp only [List.map_cons, List.map_nil, htypes]
          exact hsound.reverse_typed name reverse hreverse _ _ hname
        · intro n hn
          rw [mem_backed_apply] at hn ⊢
          simpa [or_comm] using hn
  · exact .refl h

/-- A condition: a Boolean expression. -/
structure Condition (e : Expr) : Prop where
  typed : e.Typed
  type : e.type = .boolean

lemma Condition.eval_eq {e : Expr} (h : Condition e) (row : Row) :
    engine.eval row e = .ofTruth (engine.eval row e).truth :=
  engine.eval_of_boolean row h.type

lemma Condition.of_rewrites {e e' : Expr} (h : Condition e) (hr : Rewrites engine e e') :
    Condition e' :=
  ⟨hr.typed, hr.type.trans h.type⟩

/-- Two conditions with one truth value on every row. -/
lemma Rewrites.of_truth {e e' : Expr} (h : Condition e) (h' : Condition e')
    (htruth : ∀ row, (engine.eval row e').truth = (engine.eval row e).truth)
    (hbacked : e'.backed ⊆ e.backed) : Rewrites engine e e' :=
  ⟨fun row => by rw [h.eval_eq, h'.eval_eq, htruth], h'.type.trans h.type.symm, h'.typed, hbacked⟩

variable (engine) in
/-- A condition built to have a truth value on each row, with only some BIGINT-backed types in it. -/
structure Stands (names : List String) (truth : Row → Truth) (e : Expr) : Prop where
  condition : Condition e
  truth : ∀ row, (engine.eval row e).truth = truth row
  backed : e.backed ⊆ names

variable {names : List String}

lemma Condition.stands {e : Expr} (h : Condition e) (hbacked : e.backed ⊆ names) :
    Stands engine names (fun row => (engine.eval row e).truth) e :=
  ⟨h, fun _ => rfl, hbacked⟩

lemma Stands.rewrites {e e' : Expr} (h : Condition e)
    (h' : Stands engine e.backed (fun row => (engine.eval row e).truth) e') :
    Rewrites engine e e' :=
  ⟨fun row => by rw [h.eval_eq, h'.condition.eval_eq, h'.truth],
    h'.condition.type.trans h.type.symm, h'.condition.typed, h'.backed⟩

/-- A call that is a condition. -/
lemma stands_makeCall (hsound : registry.Sound engine) {name : FunctionName} {args : List Expr}
    (hname : name.Typed (args.map Expr.type) .boolean) (hargs : ∀ a ∈ args, a.Typed)
    (hbacked : ∀ a ∈ args, a.backed ⊆ names) :
    Stands engine names
      (fun row => (engine.apply name (args.map Expr.type) .boolean
        (args.map (engine.eval row))).truth)
      (makeCall registry name args .boolean) := by
  have hr := rewrites_makeCall hsound (typed_apply.mpr ⟨hname, hargs⟩)
  refine ⟨⟨hr.typed, hr.type⟩, fun row => ?_, fun n hn => ?_⟩
  · rw [hr.eval, Engine.eval_apply, Value.truth_conform]
  · rcases mem_backed_apply.mp (hr.backed hn) with h | ⟨a, ha, hn⟩
    · cases h
    · exact hbacked a ha hn

section

variable {a b : Expr} {s t : Row → Truth}

lemma stands_makeAnd (hsound : registry.Sound engine) (ha : Stands engine names s a)
    (hb : Stands engine names t b) :
    Stands engine names (fun row => (s row).and (t row)) (makeAnd registry a b) := by
  unfold makeAnd
  split
  case isTrue heq =>
    refine ⟨ha.condition, fun row => ?_, ha.backed⟩
    rw [← ha.truth, ← hb.truth, heq, Truth.and_self]
  case isFalse =>
    have htyped : FunctionName.and.Typed ([a, b].map Expr.type) .boolean :=
      ⟨rfl, by simp [ha.condition.type, hb.condition.type]⟩
    have hnames : ∀ e ∈ [a, b], e.backed ⊆ names := by simp [ha.backed, hb.backed]
    have h := stands_makeCall hsound htyped (by simp [ha.condition.typed, hb.condition.typed]) hnames
    refine ⟨h.condition, fun row => ?_, h.backed⟩
    rw [h.truth]
    simp [Engine.apply, ha.truth, hb.truth]

lemma stands_makeOr (hsound : registry.Sound engine) (ha : Stands engine names s a)
    (hb : Stands engine names t b) :
    Stands engine names (fun row => (s row).or (t row)) (makeOr registry a b) := by
  have htyped : FunctionName.or.Typed ([a, b].map Expr.type) .boolean :=
    ⟨rfl, by simp [ha.condition.type, hb.condition.type]⟩
  have hnames : ∀ e ∈ [a, b], e.backed ⊆ names := by simp [ha.backed, hb.backed]
  have h := stands_makeCall hsound htyped (by simp [ha.condition.typed, hb.condition.typed]) hnames
  refine ⟨h.condition, fun row => ?_, h.backed⟩
  rw [makeOr, h.truth]
  simp [Engine.apply, ha.truth, hb.truth]

lemma stands_makeNot (hsound : registry.Sound engine) (ha : Stands engine names s a) :
    Stands engine names (fun row => (s row).not) (makeNot registry a) := by
  have htyped : FunctionName.negation.Typed ([a].map Expr.type) .boolean := trivial
  have hnames : ∀ e ∈ [a], e.backed ⊆ names := by simp [ha.backed]
  have h := stands_makeCall hsound htyped (by simp [ha.condition.typed]) hnames
  refine ⟨h.condition, fun row => ?_, h.backed⟩
  rw [makeNot, h.truth]
  simp [Engine.apply, ha.truth]

lemma stands_makeIsNull (hsound : registry.Sound engine) (ha : a.Typed) (hbacked : a.backed ⊆ names) :
    Stands engine names (fun row => some (decide (engine.eval row a = .null)))
      (makeIsNull registry a) := by
  have htyped : FunctionName.isNull.Typed ([a].map Expr.type) .boolean := trivial
  have hnames : ∀ e ∈ [a], e.backed ⊆ names := by simp [hbacked]
  have h := stands_makeCall hsound htyped (by simp [ha]) hnames
  refine ⟨h.condition, fun row => ?_, h.backed⟩
  rw [makeIsNull, h.truth]
  simp [Engine.apply, Value.truth]

/-- A comparison of two expressions of one type. -/
lemma stands_makeComparison (hsound : registry.Sound engine) {name : FunctionName}
    (hname : name = .equality ∨ name = .lt ∨ name = .lte ∨ name = .gt ∨ name = .gte)
    (ha : a.Typed) (hb : b.Typed) (htype : a.type = b.type) (hnames : a.backed ⊆ names)
    (hnames' : b.backed ⊆ names) :
    Stands engine names
      (fun row => engine.compareValues name a.type (engine.eval row a) (engine.eval row b))
      (makeComparison registry name a b) := by
  have htyped : name.Typed ([a, b].map Expr.type) .boolean := by
    have hboth : ∃ t, [a, b].map Expr.type = [t, t] := ⟨a.type, by simp [htype]⟩
    rcases hname with rfl | rfl | rfl | rfl | rfl <;> exact ⟨rfl, hboth⟩
  have hargs : ∀ e ∈ [a, b], e.backed ⊆ names := by simp [hnames, hnames']
  have h := stands_makeCall hsound htyped (by simp [ha, hb]) hargs
  refine ⟨h.condition, fun row => ?_, h.backed⟩
  rw [makeComparison, h.truth]
  rcases hname with rfl | rfl | rfl | rfl | rfl <;> simp [Engine.apply]

/-- A range of values, both ends in. -/
lemma stands_makeBetween {c : Expr} (hsound : registry.Sound engine) (ha : a.Typed) (hb : b.Typed)
    (hc : c.Typed) (hb' : b.type = a.type) (hc' : c.type = a.type) (hnames : a.backed ⊆ names)
    (hnames' : b.backed ⊆ names) (hnames'' : c.backed ⊆ names) :
    Stands engine names
      (fun row => (engine.compareValues .gte a.type (engine.eval row a) (engine.eval row b)).and
        (engine.compareValues .lte a.type (engine.eval row a) (engine.eval row c)))
      (makeBetween registry a b c) := by
  have htyped : FunctionName.between.Typed ([a, b, c].map Expr.type) .boolean :=
    ⟨rfl, a.type, by simp [hb', hc']⟩
  have hargs : ∀ e ∈ [a, b, c], e.backed ⊆ names := by simp [hnames, hnames', hnames'']
  have h := stands_makeCall hsound htyped (by simp [ha, hb, hc]) hargs
  refine ⟨h.condition, fun row => ?_, h.backed⟩
  rw [makeBetween, h.truth]
  simp [Engine.apply]

/-- A comparison with constants. -/
lemma stands_makeIn (hsound : registry.Sound engine) (values : List Value)
    (ha : a.Typed) (hnames : a.backed ⊆ names) :
    Stands engine names
      (fun row => engine.isIn a.type (engine.eval row a)
        (some (values.map (Value.conform a.type))))
      (makeIn registry a values) := by
  have hdups : ∀ row, engine.isIn a.type (engine.eval row a)
      (some (values.map (Value.conform a.type))) = engine.isIn a.type (engine.eval row a)
      (some (values.eraseDups.map (Value.conform a.type))) := by
    intro row
    unfold Engine.isIn
    refine if_congr Iff.rfl rfl (Truth.ext ?_ ?_)
    · simp [Truth.any_eq_true]
    · simp [Truth.any_eq_false]
  have htypes : a.type.backed ⊆ names := List.Subset.trans (backed_type a) hnames
  unfold makeIn
  split
  case h_1 single hsingle =>
    have hliteral : (Expr.literal single a.type).Typed := trivial
    have h := stands_makeComparison hsound (.inl rfl) ha hliteral rfl hnames
      (by simpa [Expr.backed] using htypes)
    refine ⟨h.condition, fun row => ?_, h.backed⟩
    rw [h.truth, hdups, hsingle]
    by_cases hnull : engine.eval row a = .null
    · simp [Engine.isIn, Engine.eval, hnull, Engine.compareValues]
    · simp [Engine.isIn, Engine.eval, hnull]
  case h_2 distinct hdistinct =>
    have htyped : FunctionName.in.Typed
        ([a, .literal (.list (.ofList values.eraseDups)) (.array a.type)].map Expr.type) .boolean :=
      rfl
    have hargs : ∀ e ∈ [a, .literal (.list (.ofList values.eraseDups)) (.array a.type)],
        e.backed ⊆ names := by
      simpa [hnames, Expr.backed, SqlType.backed] using htypes
    have h := stands_makeCall hsound htyped (by simp [ha, Expr.Typed]) hargs
    refine ⟨h.condition, fun row => ?_, h.backed⟩
    rw [h.truth, hdups]
    simp [Engine.apply, Engine.eval, Value.conform, Engine.inElements, Expr.type]

/-- A conjunction, left to right. -/
lemma stands_andAll (hsound : registry.Sound engine) {rest : List Expr} :
    ∀ {first : Expr} {s : Row → Truth}, Stands engine names s first →
      (∀ e ∈ rest, Condition e ∧ e.backed ⊆ names) →
      Stands engine names
        (fun row => (s row).and (.all (rest.map fun e => (engine.eval row e).truth)))
        (andAll registry first rest) := by
  induction rest with
  | nil =>
      intro first s hfirst _
      simpa [andAll] using hfirst
  | cons e rest ih =>
      intro first s hfirst hrest
      obtain ⟨he, hbacked⟩ := hrest e List.mem_cons_self
      have h := ih (stands_makeAnd hsound hfirst (he.stands hbacked))
        fun e' he' => hrest e' (List.mem_cons_of_mem _ he')
      refine ⟨h.condition, fun row => ?_, h.backed⟩
      rw [List.map_cons, Truth.all_cons, ← Truth.and_assoc]
      exact h.truth row

/-- A disjunction, left to right. -/
lemma stands_orAll (hsound : registry.Sound engine) {rest : List Expr} :
    ∀ {first : Expr} {s : Row → Truth}, Stands engine names s first →
      (∀ e ∈ rest, Condition e ∧ e.backed ⊆ names) →
      Stands engine names
        (fun row => (s row).or (.any (rest.map fun e => (engine.eval row e).truth)))
        (orAll registry first rest) := by
  induction rest with
  | nil =>
      intro first s hfirst _
      simpa [orAll] using hfirst
  | cons e rest ih =>
      intro first s hfirst hrest
      obtain ⟨he, hbacked⟩ := hrest e List.mem_cons_self
      have h := ih (stands_makeOr hsound hfirst (he.stands hbacked))
        fun e' he' => hrest e' (List.mem_cons_of_mem _ he')
      refine ⟨h.condition, fun row => ?_, h.backed⟩
      rw [List.map_cons, Truth.any_cons, ← Truth.or_assoc]
      exact h.truth row

end

end Verax.Filters
