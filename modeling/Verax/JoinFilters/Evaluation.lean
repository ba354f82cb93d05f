import Verax.Lib.ThreeValued
import Verax.Plan.QueryGraph

/-!
# Expressions that may fail

What expressions may come to on a row: a value or an error. AND and OR mask the error of an operand
when another one decides; IF, SWITCH and COALESCE skip arguments, and TRY catches errors. What the
query engine computes for other calls is a parameter, `Engine`.

* `Engine.evaluate`: what an expression may come to; with `masks` off, AND and OR raise the error of
  any operand, wherever no special form may skip them or catch it.
* `evaluate_congr`: an expression depends on the columns that it reads.
* `evaluate_nonempty`, `exists_evaluate_eq`: it comes to something, and to one thing if it is
  deterministic.
* `mem_evaluate_of_masks`: without masking, an expression comes to the same or may fail.
-/

namespace Verax.JoinFilters

open QueryGraph Lib

/-- What a computation comes to. -/
inductive Outcome (α : Type) where
  | error
  | value (value : α)

/-- What an argument comes to: a value, or the function that a lambda makes. -/
inductive Argument (V : Type) where
  | value (value : Option V)
  | function (apply : List (Option V) → Set (Outcome (Option V)))

variable {V : Type}

/-- The value of an argument, NULL for a function. -/
def Argument.datum : Argument V → Option V
  | .value v => v
  | .function _ => none

/-- A function that comes to one thing for each list of values. -/
def Argument.Deterministic : Argument V → Prop
  | .value _ => True
  | .function apply => ∀ vs, ∃ o, apply vs = {o}

namespace Outcome

variable {α β : Type}

/-- An outcome whose value is replaced. -/
def map (f : α → β) : Outcome α → Outcome β
  | error => error
  | value a => value (f a)

/-- The value, if there is one. -/
def get? : Outcome α → Option α
  | error => none
  | value a => some a

/-- Whether the outcome is an error. -/
def isError : Outcome α → Bool
  | error => true
  | value _ => false

end Outcome

/-- What the query engine computes: what a call may come to, the field of a value, and Booleans. -/
structure Engine (V : Type) where
  call : String → List (Argument V) → Set (Outcome (Option V))
  field : String → V → Option V
  truth : Option V → Truth
  ofTruth : Truth → Option V

/-! ### Special forms -/

/-- The ways to choose an item of each set. -/
def choices {α : Type} (sets : List (Set α)) : Set (List α) :=
  {l | List.Forall₂ (fun a s => a ∈ s) l sets}

namespace Engine

variable (engine : Engine V)

/-- What a condition comes to. -/
def truthOf (a : Argument V) : Truth := engine.truth a.datum

/-- What AND or OR comes to, given what its operands do; `decides` is what decides it. -/
def connective (masks decides : Bool) (combine : List Truth → Truth)
    (operands : List (Outcome (Argument V))) : Outcome (Argument V) :=
  let truths := (operands.filterMap Outcome.get?).map engine.truthOf
  if operands.any Outcome.isError ∧ ¬ (masks ∧ some decides ∈ truths) then .error
  else .value (.value (engine.ofTruth (combine truths)))

/-- What AND may come to. -/
def andOf (masks : Bool) (operands : List (Set (Outcome (Argument V)))) :
    Set (Outcome (Argument V)) :=
  {o | ∃ os ∈ choices operands, o = engine.connective masks false Truth.all os}

/-- What OR may come to. -/
def orOf (masks : Bool) (operands : List (Set (Outcome (Argument V)))) :
    Set (Outcome (Argument V)) :=
  {o | ∃ os ∈ choices operands, o = engine.connective masks true Truth.any os}

/-- What IF or SWITCH may come to: conditions before what they select, and last what is left, NULL
if nothing is. -/
def switchOf : List (Set (Outcome (Argument V))) → Set (Outcome (Argument V))
  | [] => {.value (.value none)}
  | [otherwise] => otherwise
  | condition :: selected :: rest => {o | .error ∈ condition ∧ o = .error ∨
      ∃ a, .value a ∈ condition ∧
        if (engine.truthOf a).holds then o ∈ selected else o ∈ switchOf rest}

/-- What COALESCE may come to: the first argument that is not NULL. -/
def coalesceOf : List (Set (Outcome (Argument V))) → Set (Outcome (Argument V))
  | [] => {.value (.value none)}
  | arg :: rest => {o | .error ∈ arg ∧ o = .error ∨
      ∃ a, .value a ∈ arg ∧ if a.datum.isSome then o = .value a else o ∈ coalesceOf rest}

/-- What TRY may come to: NULL for an error. -/
def tryOf : List (Set (Outcome (Argument V))) → Set (Outcome (Argument V))
  | [] => {.value (.value none)}
  | arg :: _ => {o | .error ∈ arg ∧ o = .value (.value none) ∨ ∃ a, .value a ∈ arg ∧ o = .value a}

/-- What any other call may come to. -/
def callOf (name : String) (args : List (Set (Outcome (Argument V)))) :
    Set (Outcome (Argument V)) :=
  {o | ∃ os ∈ choices args, if os.any Outcome.isError then o = .error
    else ∃ r ∈ engine.call name (os.filterMap Outcome.get?), o = r.map .value}

/-! ### Expressions -/

mutual

/-- **What an expression may come to** on a row. -/
def evaluate (masks : Bool) (row : Row V) : Expr V → Set (Outcome (Argument V))
  | .column c => {.value (.value (row c))}
  | .literal value => {.value (.value value)}
  | .call name _ args =>
      if name = kAnd then engine.andOf masks (evaluateAll masks row args)
      else if name = kOr then engine.orOf masks (evaluateAll masks row args)
      else if name = kTry then tryOf (evaluateAll true row args)
      else if name = kIf ∨ name = kSwitch then engine.switchOf (evaluateFirst masks row args)
      else if name = kCoalesce then coalesceOf (evaluateFirst masks row args)
      else engine.callOf name (evaluateAll masks row args)
  | .field base name => {o | ∃ b ∈ evaluate masks row base,
      o = b.map fun a => .value (a.datum.bind (engine.field name))}
  | .lambda args body => {.value (.function fun vs =>
      Outcome.map Argument.datum '' evaluate true (row.extend args vs) body)}

/-- What some expressions may come to. -/
def evaluateAll (masks : Bool) (row : Row V) : List (Expr V) → List (Set (Outcome (Argument V)))
  | [] => []
  | e :: es => evaluate masks row e :: evaluateAll masks row es

/-- What some expressions may come to, all but the first of which may be skipped. -/
def evaluateFirst (masks : Bool) (row : Row V) : List (Expr V) → List (Set (Outcome (Argument V)))
  | [] => []
  | e :: es => evaluate masks row e :: evaluateAll true row es

end

/-- What the optimizer relies on of the query engine: every call comes to something, and to one
thing if the function is deterministic. -/
structure Lawful (registry : Registry) : Prop where
  nonempty : ∀ name args, (engine.call name args).Nonempty
  deterministic : ∀ name args, (ownFunctions registry name).nonDeterministic = false →
    (∀ a ∈ args, a.Deterministic) → ∃ o, engine.call name args = {o}

variable {engine}

/-! ### What an expression depends on -/

mutual

/-- An expression depends on the columns it reads. -/
lemma evaluate_congr {masks : Bool} {row row' : Row V} : ∀ {e : Expr V},
    (∀ c ∈ e.columns, row c = row' c) → engine.evaluate masks row e = engine.evaluate masks row' e
  | .column c, h => by rw [evaluate, evaluate, h c (Finset.mem_singleton_self c)]
  | .literal _, _ => rfl
  | .call name _ args, h => by
      rw [evaluate, evaluate, evaluateAll_congr h, evaluateAll_congr h, evaluateFirst_congr h]
  | .field base name, h => by
      rw [evaluate, evaluate, evaluate_congr (e := base) h]
  | .lambda args body, h => by
      have hbody : ∀ vs, engine.evaluate true (row.extend args vs) body =
          engine.evaluate true (row'.extend args vs) body := by
        intro vs
        refine evaluate_congr fun c hc => ?_
        rw [Row.extend, Row.extend]
        split
        · rfl
        · next hargs => exact h c (by simp [Expr.columns, hc, hargs])
      rw [evaluate, evaluate]
      simp only [hbody]

lemma evaluateAll_congr {masks : Bool} {row row' : Row V} : ∀ {es : List (Expr V)},
    (∀ c ∈ Expr.columnsAll es, row c = row' c) →
      engine.evaluateAll masks row es = engine.evaluateAll masks row' es
  | [], _ => rfl
  | e :: es, h => by
      rw [evaluateAll, evaluateAll, evaluate_congr fun c hc => h c (Finset.mem_union_left _ hc),
        evaluateAll_congr fun c hc => h c (Finset.mem_union_right _ hc)]

lemma evaluateFirst_congr {masks : Bool} {row row' : Row V} : ∀ {es : List (Expr V)},
    (∀ c ∈ Expr.columnsAll es, row c = row' c) →
      engine.evaluateFirst masks row es = engine.evaluateFirst masks row' es
  | [], _ => rfl
  | e :: es, h => by
      rw [evaluateFirst, evaluateFirst,
        evaluate_congr fun c hc => h c (Finset.mem_union_left _ hc),
        evaluateAll_congr fun c hc => h c (Finset.mem_union_right _ hc)]

end

/-! ### What special forms come to -/

lemma mem_choices_cons {α : Type} {s : Set α} {sets : List (Set α)} {l : List α} :
    l ∈ choices (s :: sets) ↔ ∃ a ∈ s, ∃ l' ∈ choices sets, l = a :: l' := by
  constructor
  · rintro (⟨⟩ | @⟨a, _, l', _, ha, hl'⟩)
    exact ⟨a, ha, l', hl', rfl⟩
  · rintro ⟨a, ha, l', hl', rfl⟩
    exact .cons ha hl'

lemma choices_nonempty {α : Type} : ∀ {sets : List (Set α)}, (∀ s ∈ sets, s.Nonempty) →
    (choices sets).Nonempty
  | [], _ => ⟨[], .nil⟩
  | s :: sets, h => by
      obtain ⟨a, ha⟩ := h s List.mem_cons_self
      obtain ⟨l, hl⟩ := choices_nonempty fun s' hs' => h s' (List.mem_cons_of_mem s hs')
      exact ⟨a :: l, .cons ha hl⟩

/-- A choice can be made around one item. -/
lemma exists_mem_choices {α : Type} {s : Set α} {a : α} (ha : a ∈ s) : ∀ {sets : List (Set α)},
    (∀ s ∈ sets, s.Nonempty) → s ∈ sets → ∃ l ∈ choices sets, a ∈ l
  | s' :: sets, h, hs => by
      have hrest : ∀ t ∈ sets, t.Nonempty := fun t ht => h t (List.mem_cons_of_mem s' ht)
      rcases List.mem_cons.mp hs with rfl | hs
      · obtain ⟨l, hl⟩ := choices_nonempty hrest
        exact ⟨a :: l, .cons ha hl, List.mem_cons_self⟩
      · obtain ⟨l, hl, hmem⟩ := exists_mem_choices ha hrest hs
        obtain ⟨b, hb⟩ := h s' List.mem_cons_self
        exact ⟨b :: l, .cons hb hl, List.mem_cons_of_mem b hmem⟩

lemma any_isError {α : Type} {os : List (Outcome α)} :
    os.any Outcome.isError = true ↔ Outcome.error ∈ os := by
  rw [List.any_eq_true]
  constructor
  · rintro ⟨o, ho, herror⟩
    cases o with
    | error => exact ho
    | value a => cases herror
  · exact fun h => ⟨_, h, rfl⟩

lemma switchOf_nonempty : ∀ {args : List (Set (Outcome (Argument V)))},
    (∀ s ∈ args, s.Nonempty) → (engine.switchOf args).Nonempty
  | [], _ => ⟨_, rfl⟩
  | [s], h => h s List.mem_cons_self
  | condition :: selected :: rest, h => by
      obtain ⟨o, ho⟩ := h condition List.mem_cons_self
      cases o with
      | error => exact ⟨.error, .inl ⟨ho, rfl⟩⟩
      | value a =>
          obtain ⟨v, hv⟩ := h selected (by simp)
          have hrest : ∀ s ∈ rest, s.Nonempty := fun s hs => h s (by simp [hs])
          obtain ⟨r, hr⟩ := switchOf_nonempty hrest
          by_cases hholds : (engine.truthOf a).holds = true
          · exact ⟨v, .inr ⟨a, ho, by rwa [if_pos hholds]⟩⟩
          · exact ⟨r, .inr ⟨a, ho, by rwa [if_neg hholds]⟩⟩

lemma coalesceOf_nonempty : ∀ {args : List (Set (Outcome (Argument V)))},
    (∀ s ∈ args, s.Nonempty) → (coalesceOf args).Nonempty
  | [], _ => ⟨_, rfl⟩
  | arg :: rest, h => by
      obtain ⟨o, ho⟩ := h arg List.mem_cons_self
      cases o with
      | error => exact ⟨.error, .inl ⟨ho, rfl⟩⟩
      | value a =>
          have hrest : ∀ s ∈ rest, s.Nonempty := fun s hs => h s (by simp [hs])
          obtain ⟨r, hr⟩ := coalesceOf_nonempty hrest
          by_cases hsome : a.datum.isSome = true
          · exact ⟨.value a, .inr ⟨a, ho, by rw [if_pos hsome]⟩⟩
          · exact ⟨r, .inr ⟨a, ho, by rwa [if_neg hsome]⟩⟩

lemma tryOf_nonempty {args : List (Set (Outcome (Argument V)))} (h : ∀ s ∈ args, s.Nonempty) :
    (tryOf args).Nonempty := by
  cases args with
  | nil => exact ⟨_, rfl⟩
  | cons arg rest =>
      obtain ⟨o, ho⟩ := h arg List.mem_cons_self
      cases o with
      | error => exact ⟨_, .inl ⟨ho, rfl⟩⟩
      | value a => exact ⟨_, .inr ⟨a, ho, rfl⟩⟩

section Nonempty

variable {registry : Registry}

mutual

/-- Every expression comes to something. -/
lemma evaluate_nonempty (h : engine.Lawful registry) (masks : Bool) (row : Row V) :
    ∀ e : Expr V, (engine.evaluate masks row e).Nonempty
  | .column _ => ⟨_, rfl⟩
  | .literal _ => ⟨_, rfl⟩
  | .call name _ args => by
      have hargs := evaluateAll_nonempty h masks row args
      obtain ⟨os, hos⟩ := choices_nonempty hargs
      rw [evaluate]
      split
      · exact ⟨_, os, hos, rfl⟩
      split
      · exact ⟨_, os, hos, rfl⟩
      split
      · exact tryOf_nonempty (evaluateAll_nonempty h true row args)
      split
      · exact switchOf_nonempty (evaluateFirst_nonempty h masks row args)
      split
      · exact coalesceOf_nonempty (evaluateFirst_nonempty h masks row args)
      · obtain ⟨r, hr⟩ := h.nonempty name (os.filterMap Outcome.get?)
        by_cases herror : os.any Outcome.isError = true
        · exact ⟨.error, os, hos, by rw [if_pos herror]⟩
        · exact ⟨_, os, hos, by rw [if_neg herror]; exact ⟨r, hr, rfl⟩⟩
  | .field base name => by
      obtain ⟨b, hb⟩ := evaluate_nonempty h masks row base
      exact ⟨_, b, hb, rfl⟩
  | .lambda _ _ => ⟨_, rfl⟩

lemma evaluateAll_nonempty (h : engine.Lawful registry) (masks : Bool) (row : Row V) :
    ∀ (es : List (Expr V)), ∀ s ∈ engine.evaluateAll masks row es, s.Nonempty
  | [], s, hs => by cases hs
  | e :: es, s, hs => by
      rcases List.mem_cons.mp hs with rfl | hs
      · exact evaluate_nonempty h masks row e
      · exact evaluateAll_nonempty h masks row es s hs

lemma evaluateFirst_nonempty (h : engine.Lawful registry) (masks : Bool) (row : Row V) :
    ∀ (es : List (Expr V)), ∀ s ∈ engine.evaluateFirst masks row es, s.Nonempty
  | [], s, hs => by cases hs
  | e :: es, s, hs => by
      rcases List.mem_cons.mp hs with rfl | hs
      · exact evaluate_nonempty h masks row e
      · exact evaluateAll_nonempty h true row es s hs

end

end Nonempty

/-! ### Deterministic expressions -/

section Deterministic

variable {registry : Registry}

/-- A set of one outcome, which is no nondeterministic function. -/
def IsDetermined (s : Set (Outcome (Argument V))) (o : Outcome (Argument V)) : Prop :=
  s = {o} ∧ ∀ a, o = .value a → a.Deterministic

lemma isDetermined_value (v : Option V) :
    IsDetermined {Outcome.value (Argument.value v)} (.value (.value v)) :=
  ⟨rfl, fun _ h => by cases h; trivial⟩

lemma choices_eq {sets : List (Set (Outcome (Argument V)))} {os : List (Outcome (Argument V))}
    (h : List.Forall₂ IsDetermined sets os) : choices sets = {os} := by
  induction h with
  | nil =>
      ext l
      constructor
      · rintro ⟨⟩
        rfl
      · rintro rfl
        exact .nil
  | @cons s o sets os hs _ ih =>
      ext l
      rw [mem_choices_cons, ih, hs.1]
      simp

lemma switchOf_eq : ∀ {args : List (Set (Outcome (Argument V)))}
    {os : List (Outcome (Argument V))}, List.Forall₂ IsDetermined args os →
      ∃ o, IsDetermined (engine.switchOf args) o
  | [], _, _ => ⟨_, isDetermined_value none⟩
  | [_], _, .cons h _ => ⟨_, h⟩
  | condition :: selected :: rest, _, .cons (b := c) hc (.cons (b := s) hs hrest) => by
      obtain ⟨r, hr⟩ := switchOf_eq hrest
      cases c with
      | error =>
          refine ⟨.error, ?_, nofun⟩
          ext o
          rw [switchOf, hc.1]
          simp
      | value a =>
          by_cases hholds : (engine.truthOf a).holds = true
          · refine ⟨s, ?_, hs.2⟩
            ext o
            rw [switchOf, hc.1, hs.1]
            simp [hholds]
          · refine ⟨r, ?_, hr.2⟩
            ext o
            rw [switchOf, hc.1, hr.1]
            simp [hholds]

lemma coalesceOf_eq : ∀ {args : List (Set (Outcome (Argument V)))}
    {os : List (Outcome (Argument V))}, List.Forall₂ IsDetermined args os →
      ∃ o, IsDetermined (coalesceOf args) o
  | [], _, _ => ⟨_, isDetermined_value none⟩
  | arg :: rest, _, .cons (b := c) hc hrest => by
      obtain ⟨r, hr⟩ := coalesceOf_eq hrest
      cases c with
      | error =>
          refine ⟨.error, ?_, nofun⟩
          ext o
          rw [coalesceOf, hc.1]
          simp
      | value a =>
          by_cases hsome : a.datum.isSome = true
          · refine ⟨.value a, ?_, hc.2⟩
            ext o
            rw [coalesceOf, hc.1]
            simp [hsome]
          · refine ⟨r, ?_, hr.2⟩
            ext o
            rw [coalesceOf, hc.1, hr.1]
            simp [hsome]

lemma tryOf_eq {args : List (Set (Outcome (Argument V)))} {os : List (Outcome (Argument V))}
    (h : List.Forall₂ IsDetermined args os) : ∃ o, IsDetermined (tryOf args) o := by
  cases h with
  | nil => exact ⟨_, isDetermined_value none⟩
  | @cons arg c _ _ hc _ =>
      cases c with
      | error =>
          refine ⟨.value (.value none), ?_, fun a h => by cases h; trivial⟩
          ext o
          rw [tryOf, hc.1]
          simp
      | value a =>
          refine ⟨.value a, ?_, hc.2⟩
          ext o
          rw [tryOf, hc.1]
          simp

lemma deterministic_of_mem {args : List (Set (Outcome (Argument V)))}
    {os : List (Outcome (Argument V))} (h : List.Forall₂ IsDetermined args os) :
    ∀ a ∈ os.filterMap Outcome.get?, a.Deterministic := by
  induction h with
  | nil => simp
  | @cons s o args os ho _ ih =>
      cases o with
      | error => exact ih
      | value a =>
          show ∀ b ∈ a :: os.filterMap Outcome.get?, b.Deterministic
          exact List.forall_mem_cons.mpr ⟨ho.2 a rfl, ih⟩

lemma callOf_eq (h : engine.Lawful registry) {name : String}
    (hname : (ownFunctions registry name).nonDeterministic = false)
    {args : List (Set (Outcome (Argument V)))} {os : List (Outcome (Argument V))}
    (hargs : List.Forall₂ IsDetermined args os) :
    ∃ o, IsDetermined (engine.callOf name args) o := by
  obtain ⟨r, hr⟩ := h.deterministic name _ hname (deterministic_of_mem hargs)
  by_cases herror : os.any Outcome.isError = true
  · refine ⟨.error, ?_, nofun⟩
    ext o
    rw [callOf, choices_eq hargs]
    simp only [Set.mem_ofPred_eq, Set.mem_singleton_iff, exists_eq_left, if_pos herror]
  · refine ⟨r.map .value, ?_, fun a ha => ?_⟩
    · ext o
      rw [callOf, choices_eq hargs]
      simp only [Set.mem_ofPred_eq, Set.mem_singleton_iff, exists_eq_left, if_neg herror, hr]
    · cases r with
      | error => cases ha
      | value v =>
          cases ha
          trivial

lemma isDetermined_connective (masks decides : Bool) (combine : List Truth → Truth)
    {args : List (Set (Outcome (Argument V)))} {os : List (Outcome (Argument V))}
    (h : List.Forall₂ IsDetermined args os) :
    IsDetermined {o | ∃ os ∈ choices args, o = engine.connective masks decides combine os}
      (engine.connective masks decides combine os) := by
  refine ⟨?_, fun a ha => ?_⟩
  · ext o
    rw [choices_eq h]
    simp only [Set.mem_ofPred_eq, Set.mem_singleton_iff, exists_eq_left]
  · rw [connective] at ha
    split at ha
    · cases ha
    · cases ha
      trivial

mutual

/-- A deterministic expression comes to one thing. -/
lemma exists_evaluate_eq (h : engine.Lawful registry) (masks : Bool) (row : Row V) :
    ∀ {e : Expr V}, e.WellFormed registry → e.containsNonDeterministic = false →
      ∃ o, IsDetermined (engine.evaluate masks row e) o
  | .column c, _, _ => ⟨_, isDetermined_value (row c)⟩
  | .literal value, _, _ => ⟨_, isDetermined_value value⟩
  | .call name functions args, hwell, hdet => by
      obtain ⟨hown, hargs⟩ := hwell.subset
      have hfalse : ∀ {s : FunctionSet}, s.Subset functions → s.nonDeterministic = false :=
        fun hs => Bool.eq_false_iff.mpr fun hset => Bool.eq_false_iff.mp hdet (hs.1 hset)
      have hall : ∀ e ∈ args, e.containsNonDeterministic = false := fun e he => hfalse (hargs e he)
      obtain ⟨os, hos⟩ := exists_evaluateAll_eq h masks row hwell.2 hall
      rw [evaluate]
      split
      · exact ⟨_, isDetermined_connective _ _ _ hos⟩
      split
      · exact ⟨_, isDetermined_connective _ _ _ hos⟩
      split
      · obtain ⟨os, hos⟩ := exists_evaluateAll_eq h true row hwell.2 hall
        exact tryOf_eq hos
      split
      · obtain ⟨os, hos⟩ := exists_evaluateFirst_eq h masks row hwell.2 hall
        exact switchOf_eq hos
      split
      · obtain ⟨os, hos⟩ := exists_evaluateFirst_eq h masks row hwell.2 hall
        exact coalesceOf_eq hos
      · exact callOf_eq h (hfalse hown) hos
  | .field base name, hwell, hdet => by
      obtain ⟨b, hb, -⟩ := exists_evaluate_eq h masks row (e := base) hwell hdet
      refine ⟨b.map fun a => .value (a.datum.bind (engine.field name)), ?_, fun a ha => ?_⟩
      · ext o
        rw [evaluate, hb]
        simp only [Set.mem_ofPred_eq, Set.mem_singleton_iff, exists_eq_left]
      · cases b with
        | error => cases ha
        | value v =>
            cases ha
            trivial
  | .lambda args body, hwell, hdet => by
      refine ⟨_, rfl, fun a ha => ?_⟩
      cases ha
      intro vs
      obtain ⟨o, ho, -⟩ := exists_evaluate_eq h true (row.extend args vs) (e := body) hwell hdet
      refine ⟨o.map Argument.datum, ?_⟩
      show Outcome.map Argument.datum '' engine.evaluate true (row.extend args vs) body = _
      rw [ho, Set.image_singleton]

lemma exists_evaluateAll_eq (h : engine.Lawful registry) (masks : Bool) (row : Row V) :
    ∀ {es : List (Expr V)}, Expr.AllWellFormed registry es →
      (∀ e ∈ es, e.containsNonDeterministic = false) →
        ∃ os, List.Forall₂ IsDetermined (engine.evaluateAll masks row es) os
  | [], _, _ => ⟨[], .nil⟩
  | e :: es, hwell, hdet => by
      obtain ⟨o, ho⟩ := exists_evaluate_eq h masks row hwell.1 (hdet e List.mem_cons_self)
      obtain ⟨os, hos⟩ := exists_evaluateAll_eq h masks row hwell.2 fun e' he' =>
        hdet e' (List.mem_cons_of_mem e he')
      exact ⟨o :: os, .cons ho hos⟩

lemma exists_evaluateFirst_eq (h : engine.Lawful registry) (masks : Bool) (row : Row V) :
    ∀ {es : List (Expr V)}, Expr.AllWellFormed registry es →
      (∀ e ∈ es, e.containsNonDeterministic = false) →
        ∃ os, List.Forall₂ IsDetermined (engine.evaluateFirst masks row es) os
  | [], _, _ => ⟨[], .nil⟩
  | e :: es, hwell, hdet => by
      obtain ⟨o, ho⟩ := exists_evaluate_eq h masks row hwell.1 (hdet e List.mem_cons_self)
      obtain ⟨os, hos⟩ := exists_evaluateAll_eq h true row hwell.2 fun e' he' =>
        hdet e' (List.mem_cons_of_mem e he')
      exact ⟨o :: os, .cons ho hos⟩

end

end Deterministic

/-! ### Without masking -/

section Masks

variable {registry : Registry}

/-- Of each of two lists of sets, the second comes to what the first does or may fail. -/
abbrev ComesToOrFails (s t : Set (Outcome (Argument V))) : Prop := ∀ o ∈ s, o ∈ t ∨ .error ∈ t

lemma comesToOrFails_rfl (s : Set (Outcome (Argument V))) : ComesToOrFails s s := fun _ => .inl

/-- A choice is one of the sets that may fail, or one of these fails in another choice. -/
lemma mem_choices_or_error {sets sets' : List (Set (Outcome (Argument V)))}
    (h : List.Forall₂ ComesToOrFails sets sets') (hnonempty : ∀ s ∈ sets', s.Nonempty) :
    ∀ {os : List (Outcome (Argument V))}, os ∈ choices sets →
      os ∈ choices sets' ∨ ∃ os' ∈ choices sets', .error ∈ os' := by
  induction h with
  | nil => exact fun hos => .inl hos
  | @cons s t sets sets' hst _ ih =>
      intro os hos
      have hrest : ∀ s ∈ sets', s.Nonempty := fun s' hs' =>
        hnonempty s' (List.mem_cons_of_mem t hs')
      obtain ⟨o, ho, os, hmem, rfl⟩ := mem_choices_cons.mp hos
      clear hos
      rcases hst o ho with ho | herror
      · rcases ih hrest hmem with hos | ⟨os', hos', herror⟩
        · exact .inl (.cons ho hos)
        · exact .inr ⟨o :: os', .cons ho hos', List.mem_cons_of_mem o herror⟩
      · obtain ⟨os', hos'⟩ := choices_nonempty hrest
        exact .inr ⟨.error :: os', .cons herror hos', List.mem_cons_self⟩

lemma connective_of_error {decides : Bool} {combine : List Truth → Truth}
    {os : List (Outcome (Argument V))} (h : .error ∈ os) :
    engine.connective false decides combine os = .error := by
  rw [connective, if_pos ⟨any_isError.mpr h, by simp⟩]

lemma connective_of_not_error {masks decides : Bool} {combine : List Truth → Truth}
    {os : List (Outcome (Argument V))} (h : .error ∉ os) :
    engine.connective masks decides combine os =
      .value (.value (engine.ofTruth (combine ((os.filterMap Outcome.get?).map engine.truthOf)))) :=
  if_neg fun hif => h (any_isError.mp hif.1)

lemma comesToOrFails_connective {decides : Bool} {combine : List Truth → Truth}
    {args args' : List (Set (Outcome (Argument V)))} (h : List.Forall₂ ComesToOrFails args args')
    (hnonempty : ∀ s ∈ args', s.Nonempty) (masks : Bool) :
    ComesToOrFails {o | ∃ os ∈ choices args, o = engine.connective masks decides combine os}
      {o | ∃ os ∈ choices args', o = engine.connective false decides combine os} := by
  rintro _ ⟨os, hos, rfl⟩
  rcases mem_choices_or_error h hnonempty hos with hos | ⟨os', hos', herror⟩
  · by_cases herror : .error ∈ os
    · exact .inr ⟨os, hos, (connective_of_error herror).symm⟩
    · exact .inl ⟨os, hos, by rw [connective_of_not_error herror, connective_of_not_error herror]⟩
  · exact .inr ⟨os', hos', (connective_of_error herror).symm⟩

lemma comesToOrFails_callOf {name : String} {args args' : List (Set (Outcome (Argument V)))}
    (h : List.Forall₂ ComesToOrFails args args') (hnonempty : ∀ s ∈ args', s.Nonempty) :
    ComesToOrFails (engine.callOf name args) (engine.callOf name args') := by
  rintro o ⟨os, hos, ho⟩
  rcases mem_choices_or_error h hnonempty hos with hos | ⟨os', hos', herror⟩
  · exact .inl ⟨os, hos, ho⟩
  · exact .inr ⟨os', hos', by rw [if_pos (any_isError.mpr herror)]⟩

/-- What is evaluated first decides what else is. -/
lemma comesToOrFails_switchOf {s t : Set (Outcome (Argument V))}
    {rest : List (Set (Outcome (Argument V)))} (h : ComesToOrFails s t) :
    ComesToOrFails (engine.switchOf (s :: rest)) (engine.switchOf (t :: rest)) := by
  cases rest with
  | nil => exact h
  | cons selected rest =>
      rintro o (⟨herror, rfl⟩ | ⟨a, ha, ho⟩)
      · exact .inr (.inl ⟨(h _ herror).elim id id, rfl⟩)
      · rcases h _ ha with ha | herror
        · exact .inl (.inr ⟨a, ha, ho⟩)
        · exact .inr (.inl ⟨herror, rfl⟩)

lemma comesToOrFails_coalesceOf {s t : Set (Outcome (Argument V))}
    {rest : List (Set (Outcome (Argument V)))} (h : ComesToOrFails s t) :
    ComesToOrFails (coalesceOf (s :: rest)) (coalesceOf (t :: rest)) := by
  rintro o (⟨herror, rfl⟩ | ⟨a, ha, ho⟩)
  · exact .inr (.inl ⟨(h _ herror).elim id id, rfl⟩)
  · rcases h _ ha with ha | herror
    · exact .inl (.inr ⟨a, ha, ho⟩)
    · exact .inr (.inl ⟨herror, rfl⟩)

mutual

/-- Without masking, an expression comes to what it comes to with it, or may fail. -/
lemma mem_evaluate_of_masks (h : engine.Lawful registry) (row : Row V) : ∀ e : Expr V,
    ComesToOrFails (engine.evaluate true row e) (engine.evaluate false row e)
  | .column _ => comesToOrFails_rfl _
  | .literal _ => comesToOrFails_rfl _
  | .call name functions args => by
      have hargs := mem_evaluateAll_of_masks h row args
      have hnonempty := evaluateAll_nonempty h false row args
      rw [evaluate, evaluate]
      split
      · exact comesToOrFails_connective hargs hnonempty true
      split
      · exact comesToOrFails_connective hargs hnonempty true
      split
      · exact comesToOrFails_rfl _
      split
      · cases args with
        | nil => exact comesToOrFails_rfl _
        | cons first rest => exact comesToOrFails_switchOf (mem_evaluate_of_masks h row first)
      split
      · cases args with
        | nil => exact comesToOrFails_rfl _
        | cons first rest => exact comesToOrFails_coalesceOf (mem_evaluate_of_masks h row first)
      · exact comesToOrFails_callOf hargs hnonempty
  | .field base name => by
      rintro _ ⟨b, hb, rfl⟩
      rcases mem_evaluate_of_masks h row base b hb with hb | herror
      · exact .inl ⟨b, hb, rfl⟩
      · exact .inr ⟨.error, herror, rfl⟩
  | .lambda _ _ => comesToOrFails_rfl _

lemma mem_evaluateAll_of_masks (h : engine.Lawful registry) (row : Row V) : ∀ es : List (Expr V),
    List.Forall₂ ComesToOrFails (engine.evaluateAll true row es) (engine.evaluateAll false row es)
  | [] => .nil
  | e :: es => .cons (mem_evaluate_of_masks h row e) (mem_evaluateAll_of_masks h row es)

end

end Masks

end Engine

end Verax.JoinFilters
