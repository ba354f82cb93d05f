import Verax.Filters.TransitiveFilters

/-!
# Transitive filters accept the same rows

An expression rewritten through a mapping has the value the expression has on the row the mapping
makes of the row, and simplification keeps the value on a row where the columns it takes to be there
are there. On a row that meets a join the two rows are not distinct, so that a condition that cannot
tell such rows apart accepts both or none.

* `Carries`: an expression stands on one row for what another is on another row.
* `carries_replace`, `carries_simplifyNonNull`: rewriting and simplifying.
* `DerivesTransitive`: of every join and all filters on its sides, what is left keeps the rows.
* `derivesTransitive_of_indifferent`: two conditions under which it does.
-/

set_option linter.unusedSectionVars false

namespace Verax.Filters

open Lib

/-! ### Equality -/

/-- What the query engine promises of equality and of IS DISTINCT FROM: a value of a primitive type
is equal to itself, no value is distinct from itself or from an equal value, and it does not matter
which of two values comes first. -/
structure Engine.Equality (engine : Engine) (primitive : String → Bool) : Prop where
  reflexive : ∀ type : SqlType, type.isPrimitive primitive = true → ∀ v, v ≠ .null →
    engine.compareValues .equality type v v = some true
  same : ∀ type v, engine.distinctValues type v v = some false
  symmetric : ∀ type v w, engine.distinctValues type v w = engine.distinctValues type w v
  equal : ∀ type v w, engine.compareValues .equality type v w = some true →
    engine.distinctValues type v w = some false

namespace Engine

variable (engine : Engine)

/-- The rows that agree with another on some columns as far as IS DISTINCT FROM tells. -/
def NotDistinct (columns : List Column) (row row' : Row) : Prop :=
  ∀ c ∈ columns, engine.distinctValues c.type (engine.eval row (.column c))
    (engine.eval row' (.column c)) = some false

/-- No condition over some BIGINT-backed types tells apart rows that are not distinct. -/
def Indifferent (volatile : FunctionName → Bool) (names : Set String) : Prop :=
  ∀ e, Condition e → containsNonDeterministic volatile e = false → (∀ n ∈ e.backed, n ∈ names) →
    ∀ row row', Fits row → Fits row' → engine.NotDistinct e.columns row row' →
      (engine.accepts row e ↔ engine.accepts row' e)

/-- Two values of a key match.
Source: `Node.h` `Join`, `nullAsValue`. -/
def keysMatch (nullAsValue : Bool) (type : SqlType) (left right : Value) : Prop :=
  if nullAsValue then engine.distinctValues type left right = some false
  else engine.compareValues .equality type left right = some true

end Engine

/-! ### Carrying a value from row to row -/

section

variable {engine : Engine} {registry : Registry}

variable (engine) in
/-- An expression has on one row the value that another has on another row, the same type, and
nothing new in it. -/
structure Carries (row row' : Row) (e e' : Expr) : Prop where
  eval : engine.eval row' e' = engine.eval row e
  type : e'.type = e.type
  typed : e'.Typed
  backed : e'.backed ⊆ e.backed

namespace Carries

variable {row row' row'' : Row} {a b c : Expr}

lemma refl (h : a.Typed) : Carries engine row row a a :=
  ⟨rfl, rfl, h, List.Subset.refl _⟩

lemma trans (h : Carries engine row row' a b) (h' : Carries engine row' row'' b c) :
    Carries engine row row'' a c :=
  ⟨h'.eval.trans h.eval, h'.type.trans h.type, h'.typed, List.Subset.trans h'.backed h.backed⟩

lemma condition (h : Carries engine row row' a b) (ha : Condition a) : Condition b :=
  ⟨h.typed, h.type.trans ha.type⟩

lemma accepts_iff (h : Carries engine row row' a b) :
    engine.accepts row' b ↔ engine.accepts row a := by
  unfold Engine.accepts
  rw [h.eval]

end Carries

lemma Rewrites.carries {e e' : Expr} (h : Rewrites engine e e') (row : Row) :
    Carries engine row row e e' :=
  ⟨h.eval row, h.type, h.typed, h.backed⟩

/-- Rewriting the arguments of a call. -/
lemma carries_apply {row row' : Row} {name : FunctionName} {args args' : List Expr} {type : SqlType}
    (hname : name.Typed (args.map Expr.type) type)
    (h : List.Forall₂ (Carries engine row row') args args') :
    Carries engine row row' (.apply name args type) (.apply name args' type) where
  eval := by
    have hevals : args'.map (engine.eval row') = args.map (engine.eval row) := by
      rw [← List.forall₂_eq_eq_eq, List.forall₂_map_left_iff, List.forall₂_map_right_iff]
      exact List.Forall₂.flip (h.imp fun _ _ h => h.eval)
    rw [Engine.eval_apply, Engine.eval_apply, map_eq_of_forall₂ (fun _ _ h => h.type) h, hevals]
  type := rfl
  typed := by
    rw [typed_apply, map_eq_of_forall₂ (fun _ _ h => h.type) h]
    refine ⟨hname, fun a ha => ?_⟩
    obtain ⟨b, -, hb⟩ := exists_of_forall₂ h ha
    exact hb.typed
  backed := by
    intro n hn
    rw [mem_backed_apply] at hn ⊢
    refine hn.imp_right ?_
    rintro ⟨a, ha, hn⟩
    obtain ⟨b, hb, hab⟩ := exists_of_forall₂ h ha
    exact ⟨b, hb, hab.backed hn⟩

/-- Rebuilding a call over rewritten arguments. -/
lemma carries_makeCall (hsound : registry.Sound engine) {row row' : Row} {name : FunctionName}
    {args args' : List Expr} {type : SqlType} (hname : name.Typed (args.map Expr.type) type)
    (h : List.Forall₂ (Carries engine row row') args args') :
    Carries engine row row' (.apply name args type) (makeCall registry name args' type) :=
  (carries_apply hname h).trans
    ((rewrites_makeCall hsound (carries_apply hname h).typed).carries row')

lemma carries_field {row row' : Row} {base base' : Expr} {name : String} {type : SqlType}
    (h : Carries engine row row' base base') :
    Carries engine row row' (.field base name type) (.field base' name type) where
  eval := by rw [Engine.eval, Engine.eval, h.eval]
  type := rfl
  typed := h.typed
  backed := by
    intro n hn
    rw [Expr.backed, List.mem_append] at hn ⊢
    exact hn.imp_left fun hn => h.backed hn

mutual

/-- The value of an expression depends on the columns it reads. -/
lemma eval_congr {row row' : Row} : (e : Expr) →
    (∀ c ∈ e.columns, engine.eval row' (.column c) = engine.eval row (.column c)) →
      engine.eval row' e = engine.eval row e
  | .column c, h => h c (List.mem_singleton_self c)
  | .literal value type, _ => by rw [Engine.eval, Engine.eval]
  | .field base name type, h => by rw [Engine.eval, Engine.eval, eval_congr base h]
  | .call name args type, h => by
      rw [Engine.eval_call, Engine.eval_call, eval_congrArgs args h]

lemma eval_congrArgs {row row' : Row} : (args : Exprs) →
    (∀ c ∈ args.columns, engine.eval row' (.column c) = engine.eval row (.column c)) →
      args.toList.map (engine.eval row') = args.toList.map (engine.eval row)
  | .nil, _ => rfl
  | .cons head tail, h => by
      have hhead := eval_congr head fun c hc => h c (List.mem_union_iff.mpr (.inl hc))
      have htail := eval_congrArgs tail fun c hc => h c (List.mem_union_iff.mpr (.inr hc))
      rw [Exprs.toList, List.map_cons, List.map_cons, hhead, htail]

end

/-! ### Rewriting through a mapping -/

/-- The row a mapping makes of a row. -/
def rebind (mapping : ExprSubstitution) (row : Row) : Row :=
  fun c => match mapping.lookup c with
    | some target => row target
    | none => row c

/-- A mapping sends every column to a column of its type. -/
def ExprSubstitution.KeepsTypes (mapping : ExprSubstitution) : Prop :=
  ∀ p ∈ mapping, p.1.type = p.2.type

lemma ExprSubstitution.KeepsTypes.of_lookup {mapping : ExprSubstitution}
    (h : mapping.KeepsTypes) {c target : Column} (hlookup : mapping.lookup c = some target) :
    c.type = target.type := by
  obtain ⟨before, after, rfl, -⟩ := List.lookup_eq_some_iff.mp hlookup
  exact h (c, target) (by simp)

lemma fits_rebind {mapping : ExprSubstitution} (h : mapping.KeepsTypes) {row : Row}
    (hfits : Fits row) : Fits (rebind mapping row) := by
  intro c limits hlimits
  unfold rebind
  split
  case h_1 target hlookup => exact hfits target limits (h.of_lookup hlookup ▸ hlimits)
  case h_2 => exact hfits c limits hlimits

lemma eval_rebind_column {mapping : ExprSubstitution} (h : mapping.KeepsTypes) (row : Row)
    (c : Column) :
    engine.eval (rebind mapping row) (.column c) =
      engine.eval row (.column ((mapping.lookup c).getD c)) := by
  rw [Engine.eval, Engine.eval, rebind]
  cases hlookup : mapping.lookup c with
  | none => rfl
  | some target => rw [Option.getD_some, h.of_lookup hlookup]

mutual

/-- A rewritten expression stands for the expression on the row the mapping makes. -/
theorem carries_replace (hsound : registry.Sound engine) {mapping : ExprSubstitution}
    (hmapping : mapping.KeepsTypes) (row : Row) : (e : Expr) → e.Typed →
    Carries engine (rebind mapping row) row e (replace registry mapping e)
  | .column c, _ => by
      have hvalue : engine.eval (rebind mapping row) (.column c) =
          engine.eval row (.column ((mapping.lookup c).getD c)) :=
        eval_rebind_column hmapping row c
      rw [replace]
      cases hlookup : mapping.lookup c with
      | none =>
          rw [hlookup] at hvalue
          exact ⟨hvalue.symm, rfl, trivial, List.Subset.refl _⟩
      | some target =>
          rw [hlookup] at hvalue
          have htype := hmapping.of_lookup hlookup
          refine ⟨hvalue.symm, htype.symm, trivial, ?_⟩
          rw [Expr.backed, Expr.backed, htype]
          exact List.Subset.refl _
  | .literal value type, h => ⟨rfl, rfl, h, List.Subset.refl _⟩
  | .field base name type, h => carries_field (carries_replace hsound hmapping row base h)
  | .call name args type, h => by
      obtain ⟨hname, hargs⟩ := typed_call.mp h
      have hreplaced := carries_replaceArgs hsound hmapping row args hargs
      have hcall : Expr.call name args type = .apply name args.toList type := by
        rw [Expr.apply, Exprs.ofList_toList]
      rw [replace]
      split
      case isTrue hsame =>
        rw [hsame] at hreplaced
        rw [hcall]
        exact carries_apply hname hreplaced
      case isFalse =>
        rw [hcall]
        exact carries_makeCall hsound hname hreplaced

lemma carries_replaceArgs (hsound : registry.Sound engine) {mapping : ExprSubstitution}
    (hmapping : mapping.KeepsTypes) (row : Row) : (args : Exprs) → (∀ a ∈ args.toList, a.Typed) →
    List.Forall₂ (Carries engine (rebind mapping row) row) args.toList
      (replaceArgs registry mapping args)
  | .nil, _ => .nil
  | .cons head tail, h => by
      obtain ⟨hhead, htail⟩ := List.forall_mem_cons.mp h
      exact .cons (carries_replace hsound hmapping row head hhead)
        (carries_replaceArgs hsound hmapping row tail htail)

end

/-! ### Simplifying with columns that are not NULL -/

section

variable {row : Row} {nonNullColumns : List Column}

/-- A COALESCE has the first value that is not NULL. -/
lemma eval_coalesce {args : List Expr} {type : SqlType} (h : ∀ a ∈ args, a.type = type) :
    engine.eval row (.apply .coalesce args type) =
      ((args.map (engine.eval row)).find? (· ≠ .null)).getD .null := by
  rw [Engine.eval_apply, Engine.apply]
  cases hfind : (args.map (engine.eval row)).find? (· ≠ .null) with
  | none => exact Value.conform_null type
  | some value =>
      obtain ⟨a, ha, rfl⟩ := List.mem_map.mp (List.mem_of_find?_eq_some hfind)
      rw [Option.getD_some, ← h a ha, engine.conform_eval]

mutual

lemma eval_ne_null_of_isKnownNonNull
    (h : ∀ c ∈ nonNullColumns, engine.eval row (.column c) ≠ .null) : (e : Expr) → e.Typed →
      isKnownNonNull nonNullColumns e = true → engine.eval row e ≠ .null
  | .column c, _, hknown => h c (by simpa [isKnownNonNull] using hknown)
  | .literal value type, _, hknown => by
      rw [Engine.eval]
      simpa [isKnownNonNull] using hknown
  | .field base name type, _, hknown => by simp [isKnownNonNull] at hknown
  | .call name args type, htyped, hknown => by
      obtain ⟨hname, hargs⟩ := typed_call.mp htyped
      obtain ⟨rfl, hany⟩ : name = .coalesce ∧ anyKnownNonNull nonNullColumns args = true := by
        simpa [isKnownNonNull] using hknown
      obtain ⟨a, ha, hvalue⟩ := exists_ne_null_of_anyKnownNonNull h args hargs hany
      have htypes : ∀ a ∈ args.toList, a.type = type :=
        fun a ha => hname _ (List.mem_map_of_mem ha)
      have hcall : Expr.call .coalesce args type = .apply .coalesce args.toList type := by
        rw [Expr.apply, Exprs.ofList_toList]
      rw [hcall, eval_coalesce htypes]
      cases hfind : (args.toList.map (engine.eval row)).find? (· ≠ .null) with
      | none =>
          have hnone := List.find?_eq_none.mp hfind _ (List.mem_map_of_mem ha)
          exact absurd (by simpa using hnone) hvalue
      | some value => simpa using List.find?_some hfind

lemma exists_ne_null_of_anyKnownNonNull
    (h : ∀ c ∈ nonNullColumns, engine.eval row (.column c) ≠ .null) : (args : Exprs) →
      (∀ a ∈ args.toList, a.Typed) → anyKnownNonNull nonNullColumns args = true →
        ∃ a ∈ args.toList, engine.eval row a ≠ .null
  | .nil, _, hany => by simp [anyKnownNonNull] at hany
  | .cons head tail, htyped, hany => by
      obtain ⟨hhead, htail⟩ := List.forall_mem_cons.mp htyped
      rcases Bool.or_eq_true_iff.mp hany with hknown | hany
      · exact ⟨head, List.mem_cons_self, eval_ne_null_of_isKnownNonNull h head hhead hknown⟩
      · obtain ⟨a, ha, hvalue⟩ := exists_ne_null_of_anyKnownNonNull h tail htail hany
        exact ⟨a, List.mem_cons_of_mem _ ha, hvalue⟩

end

lemma mem_of_mem_coalesceArgs {a : Expr} : {args : List Expr} →
    a ∈ coalesceArgs nonNullColumns args → a ∈ args
  | [], h => h
  | arg :: rest, h => by
      rw [coalesceArgs] at h
      split at h
      · exact List.mem_cons_of_mem _ (mem_of_mem_coalesceArgs h)
      · split at h
        · exact List.mem_singleton.mp h ▸ List.mem_cons_self
        · rcases List.mem_cons.mp h with rfl | h
          · exact List.mem_cons_self
          · exact List.mem_cons_of_mem _ (mem_of_mem_coalesceArgs h)

/-- The arguments left of a COALESCE have the same first value that is not NULL. -/
lemma firstNonNull_coalesceArgs (h : ∀ c ∈ nonNullColumns, engine.eval row (.column c) ≠ .null) :
    {args : List Expr} → (∀ a ∈ args, a.Typed) →
      ((coalesceArgs nonNullColumns args).map (engine.eval row)).find? (· ≠ .null) =
        (args.map (engine.eval row)).find? (· ≠ .null)
  | [], _ => rfl
  | arg :: rest, htyped => by
      obtain ⟨harg, hrest⟩ := List.forall_mem_cons.mp htyped
      have ih := firstNonNull_coalesceArgs h hrest
      rw [coalesceArgs]
      split
      case isTrue hnull =>
        rw [ih, List.map_cons, eval_of_isConstantNull hnull, List.find?_cons_of_neg (by simp)]
      case isFalse =>
        split
        case isTrue hknown =>
          have hvalue := eval_ne_null_of_isKnownNonNull h arg harg hknown
          rw [List.map_cons, List.map_cons, List.find?_cons_of_pos (by simpa using hvalue),
            List.find?_cons_of_pos (by simpa using hvalue)]
        case isFalse => rw [List.map_cons, List.map_cons, List.find?_cons, List.find?_cons, ih]

/-- Simplifying a COALESCE. -/
lemma carries_coalesce (hsound : registry.Sound engine)
    (hnonNull : ∀ c ∈ nonNullColumns, engine.eval row (.column c) ≠ .null)
    {volatile : FunctionName → Bool} {primitive : String → Bool}
    {args simplifiedArgs : List Expr} {type : SqlType}
    (h : (Expr.apply .coalesce simplifiedArgs type).Typed)
    (hsame : simplifiedArgs = [] → args = []) :
    Carries engine row row (.apply .coalesce simplifiedArgs type)
      (simplifyCall registry volatile primitive nonNullColumns .coalesce args type
        simplifiedArgs) := by
  obtain ⟨hlocal, htyped⟩ := typed_apply.mp h
  have htypes : ∀ a ∈ simplifiedArgs, a.type = type :=
    fun a ha => hlocal _ (List.mem_map_of_mem ha)
  unfold simplifyCall
  rw [if_pos rfl]
  split
  case h_2 =>
    rw [hsame rfl]
    exact .refl h
  case h_1 first rest =>
    -- An argument alone has the value of the call.
    have hsingle : ∀ a ∈ first :: rest,
        engine.eval row (.apply .coalesce (first :: rest) type) = engine.eval row a →
          Carries engine row row (.apply .coalesce (first :: rest) type) a := by
      intro a ha heval
      exact ⟨heval.symm, htypes a ha, htyped a ha,
        fun n hn => mem_backed_apply.mpr (.inr ⟨a, ha, hn⟩)⟩
    split
    case isTrue hknown =>
      refine hsingle first List.mem_cons_self ?_
      have hvalue := eval_ne_null_of_isKnownNonNull hnonNull first
        (htyped first List.mem_cons_self) hknown
      rw [eval_coalesce htypes, List.map_cons, List.find?_cons_of_pos (by simpa using hvalue)]
      rfl
    case isFalse =>
      have hfirst := firstNonNull_coalesceArgs hnonNull htyped
      have hmem : ∀ a ∈ coalesceArgs nonNullColumns (first :: rest), a ∈ first :: rest :=
        fun a ha => mem_of_mem_coalesceArgs ha
      revert hfirst hmem
      generalize coalesceArgs nonNullColumns (first :: rest) = kept
      intro hfirst hmem
      have hkept : Carries engine row row (.apply .coalesce (first :: rest) type)
          (.apply .coalesce kept type) := by
        refine ⟨?_, rfl, typed_apply.mpr ⟨fun t ht => ?_, fun a ha => htyped a (hmem a ha)⟩,
          fun n hn => ?_⟩
        · rw [eval_coalesce htypes, eval_coalesce fun a ha => htypes a (hmem a ha), hfirst]
        · obtain ⟨a, ha, rfl⟩ := List.mem_map.mp ht
          exact htypes a (hmem a ha)
        · refine mem_backed_apply.mpr ((mem_backed_apply.mp hn).imp_right ?_)
          rintro ⟨a, ha, hn⟩
          exact ⟨a, hmem a ha, hn⟩
      split
      case h_1 =>
        refine ⟨?_, rfl, trivial, List.subset_append_left _ _⟩
        rw [← hkept.eval, eval_coalesce (by simp)]
        exact Value.conform_null type
      case h_2 arg =>
        split
        case isTrue hunchanged =>
          rw [← hunchanged]
          exact hkept
        case isFalse =>
          refine hsingle arg (hmem arg List.mem_cons_self) ?_
          rw [← hkept.eval, eval_coalesce (by simpa using htypes arg (hmem arg List.mem_cons_self))]
          by_cases hnull : engine.eval row arg = .null
          · simp [hnull]
          · simp [hnull]
      case h_3 =>
        split
        case isTrue hunchanged =>
          rw [← hunchanged]
          exact hkept
        case isFalse => exact hkept.trans ((rewrites_makeCall hsound hkept.typed).carries row)

/-- Simplifying a call whose arguments are simplified. -/
lemma carries_simplifyCall (hsound : registry.Sound engine) {volatile : FunctionName → Bool}
    {primitive : String → Bool} (hequality : engine.Equality primitive)
    (hnonNull : ∀ c ∈ nonNullColumns, engine.eval row (.column c) ≠ .null) {name : FunctionName}
    {args simplifiedArgs : List Expr} {type : SqlType}
    (h : (Expr.apply name simplifiedArgs type).Typed) (hsame : simplifiedArgs = [] → args = []) :
    Carries engine row row (.apply name simplifiedArgs type)
      (simplifyCall registry volatile primitive nonNullColumns name args type simplifiedArgs) := by
  by_cases hcoalesce : name = .coalesce
  · subst hcoalesce
    exact carries_coalesce hsound hnonNull h hsame
  · obtain ⟨hlocal, htyped⟩ := typed_apply.mp h
    have hrebuilt : Carries engine row row (.apply name simplifiedArgs type)
        (if simplifiedArgs = args then .apply name args type
          else makeCall registry name simplifiedArgs type) := by
      split
      case isTrue hunchanged =>
        rw [← hunchanged]
        exact .refl h
      case isFalse => exact (rewrites_makeCall hsound h).carries row
    unfold simplifyCall
    rw [if_neg hcoalesce]
    dsimp only
    split
    case h_1 arg =>
      split
      case isFalse => exact hrebuilt
      case isTrue hknown =>
        have hvalue := eval_ne_null_of_isKnownNonNull hnonNull arg
          (htyped arg List.mem_cons_self) hknown
        refine ⟨?_, rfl, trivial, List.subset_append_left _ _⟩
        rw [Engine.eval, Engine.eval_apply]
        simp [Engine.apply, hvalue]
    case h_2 lhs rhs =>
      split
      case isFalse => exact hrebuilt
      case isTrue hself =>
        obtain ⟨⟨⟨rfl, hprimitive⟩, -⟩, hknown⟩ : ((lhs = rhs ∧
            lhs.type.isPrimitive primitive = true) ∧
              containsNonDeterministic volatile lhs = false) ∧
                isKnownNonNull nonNullColumns lhs = true := by simpa using hself
        obtain ⟨rfl, -⟩ := hlocal
        have hvalue := eval_ne_null_of_isKnownNonNull hnonNull lhs
          (htyped lhs List.mem_cons_self) hknown
        refine ⟨?_, rfl, trivial, List.subset_append_left _ _⟩
        rw [makeBoolean, Engine.eval, Engine.eval_apply]
        simp only [Engine.apply, List.map_cons, List.map_nil, List.headD_cons]
        rw [hequality.reflexive _ hprimitive _ hvalue]
        rfl
    case h_3 => exact hrebuilt

mutual

/-- A simplified expression has the value of the expression on a row where the columns taken not to
be NULL are not. -/
theorem carries_simplifyNonNull (hsound : registry.Sound engine) {volatile : FunctionName → Bool}
    {primitive : String → Bool} (hequality : engine.Equality primitive)
    (hnonNull : ∀ c ∈ nonNullColumns, engine.eval row (.column c) ≠ .null) : (e : Expr) →
    e.Typed → Carries engine row row e
      (simplifyNonNull registry volatile primitive nonNullColumns e)
  | .column c, h => .refl h
  | .literal value type, h => .refl h
  | .field base name type, h =>
      carries_field (carries_simplifyNonNull hsound hequality hnonNull base h)
  | .call name args type, h => by
      obtain ⟨hname, hargs⟩ := typed_call.mp h
      have hsimplified : List.Forall₂ (Carries engine row row) args.toList
          (simplifyNonNullArgs registry volatile primitive nonNullColumns args) :=
        carries_simplifyNonNullArgs hsound hequality hnonNull args hargs
      have hcall : Expr.call name args type = .apply name args.toList type := by
        rw [Expr.apply, Exprs.ofList_toList]
      have happly := carries_apply hname hsimplified
      rw [simplifyNonNull, hcall]
      refine happly.trans (carries_simplifyCall hsound hequality hnonNull happly.typed ?_)
      intro hnil
      rw [hnil] at hsimplified
      exact List.forall₂_nil_right_iff.mp hsimplified

lemma carries_simplifyNonNullArgs (hsound : registry.Sound engine)
    {volatile : FunctionName → Bool} {primitive : String → Bool}
    (hequality : engine.Equality primitive)
    (hnonNull : ∀ c ∈ nonNullColumns, engine.eval row (.column c) ≠ .null) : (args : Exprs) →
    (∀ a ∈ args.toList, a.Typed) → List.Forall₂ (Carries engine row row) args.toList
      (simplifyNonNullArgs registry volatile primitive nonNullColumns args)
  | .nil, _ => .nil
  | .cons head tail, h => by
      obtain ⟨hhead, htail⟩ := List.forall_mem_cons.mp h
      exact .cons (carries_simplifyNonNull hsound hequality hnonNull head hhead)
        (carries_simplifyNonNullArgs hsound hequality hnonNull tail htail)

end

end

/-! ### What the mappings of a join promise -/

variable (engine) in
/-- A row that meets a join: its keys match and its conditions are met. -/
structure Join.Meets (join : Join) (row : Row) : Prop where
  keys : ∀ p ∈ join.keys, engine.keysMatch join.nullAsValue p.1.type (engine.eval row p.1)
    (engine.eval row p.2)
  filter : ∀ e ∈ join.filter, engine.accepts row e

variable {volatile : FunctionName → Bool} {primitive : String → Bool}

lemma compareValues_ne_null {name : FunctionName} {type : SqlType} {v w : Value}
    (h : engine.compareValues name type v w = some true) : v ≠ .null ∧ w ≠ .null := by
  constructor
  · rintro rfl
    rw [compareValues_null_left] at h
    cases h
  · rintro rfl
    rw [compareValues_null_right] at h
    cases h

/-- A row has equal values in two columns; where NULL matches no NULL, neither is NULL. -/
structure Equated (engine : Engine) (nullAsValue : Bool) (row : Row) (p : Column × Column) :
    Prop where
  notDistinct : engine.distinctValues p.1.type (engine.eval row (.column p.1))
    (engine.eval row (.column p.2)) = some false
  left : nullAsValue = false → engine.eval row (.column p.1) ≠ .null
  right : nullAsValue = false → engine.eval row (.column p.2) ≠ .null

lemma Equated.of_equal {nullAsValue : Bool} {row : Row} {p : Column × Column}
    (hequality : engine.Equality primitive)
    (h : engine.compareValues .equality p.1.type (engine.eval row (.column p.1))
      (engine.eval row (.column p.2)) = some true) : Equated engine nullAsValue row p :=
  ⟨hequality.equal _ _ _ h, fun _ => (compareValues_ne_null h).1,
    fun _ => (compareValues_ne_null h).2⟩

lemma Equated.swap {nullAsValue : Bool} {row : Row} {p : Column × Column}
    (hequality : engine.Equality primitive) (htype : p.1.type = p.2.type)
    (h : Equated engine nullAsValue row p) : Equated engine nullAsValue row p.swap :=
  ⟨by
    rw [Prod.fst_swap, Prod.snd_swap, ← htype, hequality.symmetric]
    exact h.notDistinct, h.right, h.left⟩

namespace Join

variable {join : Join}

lemma types_of_equality {first second : Column} {type : SqlType}
    (h : Condition (.call .equality (.cons (.column first) (.cons (.column second) .nil)) type)) :
    first.type = second.type := by
  obtain ⟨-, t, htypes⟩ := (typed_call.mp h.typed).1
  obtain ⟨hfirst, hsecond⟩ : first.type = t ∧ second.type = t := by
    simpa [Exprs.toList, Expr.type] using htypes
  exact hfirst.trans hsecond.symm

/-- A pair comes from a key, or from an equality in the filter, turned around or not. -/
lemma mem_equiColumnPairs {p : Column × Column} (h : p ∈ join.equiColumnPairs) :
    (Expr.column p.1, Expr.column p.2) ∈ join.keys ∨
      ∃ first second type, (p = (first, second) ∨ p = (second, first)) ∧
        .call .equality (.cons (.column first) (.cons (.column second) .nil)) type ∈
          join.filter := by
  rw [equiColumnPairs, List.mem_eraseDups, List.mem_append] at h
  rcases h with h | h
  · obtain ⟨key, hkey, hpair⟩ := List.mem_filterMap.mp h
    unfold keyPair at hpair
    split at hpair
    case h_2 => cases hpair
    case h_1 left right =>
      cases hpair
      exact .inl hkey
  · obtain ⟨e, he, hpair⟩ := List.mem_filterMap.mp h
    unfold equalityPair at hpair
    split at hpair
    case h_2 => cases hpair
    case h_1 first second type =>
      split at hpair
      · cases hpair
        exact .inr ⟨_, _, _, .inl rfl, he⟩
      · split at hpair
        · cases hpair
          exact .inr ⟨_, _, _, .inr rfl, he⟩
        · cases hpair

/-- The columns of a pair have one type. -/
lemma types_of_mem {p : Column × Column} (h : p ∈ join.equiColumnPairs) :
    p.1.type = p.2.type := by
  rcases mem_equiColumnPairs h with hkey | ⟨first, second, type, hp, hfilter⟩
  · exact join.key_types _ hkey
  · have htypes := types_of_equality (join.filter_conditions _ hfilter)
    rcases hp with rfl | rfl
    · exact htypes
    · exact htypes.symm

/-- The columns of a pair have equal values in a row that meets the join. -/
lemma equated_of_meets (hequality : engine.Equality primitive) {row : Row}
    (hmeets : join.Meets engine row) {p : Column × Column} (h : p ∈ join.equiColumnPairs) :
    Equated engine join.nullAsValue row p := by
  rcases mem_equiColumnPairs h with hkey | ⟨first, second, type, hp, hfilter⟩
  · have hmatch := hmeets.keys _ hkey
    unfold Engine.keysMatch at hmatch
    split at hmatch
    case isTrue hnulls => exact ⟨hmatch, by simp [hnulls], by simp [hnulls]⟩
    case isFalse => exact .of_equal hequality hmatch
  · have htypes := types_of_equality (join.filter_conditions _ hfilter)
    have haccepts := hmeets.filter _ hfilter
    rw [Engine.accepts, Engine.eval_call, Value.truth_conform] at haccepts
    have hequated : Equated engine join.nullAsValue row (first, second) :=
      .of_equal hequality (by simpa [Exprs.toList, Engine.apply, Expr.type] using haccepts)
    rcases hp with rfl | rfl
    · exact hequated
    · exact hequated.swap hequality htypes

end Join

lemma mem_addSubstitution {pair p : Column × Column} {mapping : ExprSubstitution} :
    {result : List ExprSubstitution} → mapping ∈ addSubstitution result pair → p ∈ mapping →
      p = pair ∨ ∃ m ∈ result, p ∈ m
  | [], hm, hp => by
      rw [addSubstitution, List.mem_singleton] at hm
      exact .inl (List.mem_singleton.mp (hm ▸ hp))
  | first :: rest, hm, hp => by
      rw [addSubstitution] at hm
      split at hm
      · rcases List.mem_cons.mp hm with rfl | hm
        · exact .inr ⟨_, List.mem_cons_self, hp⟩
        · rcases mem_addSubstitution hm hp with heq | ⟨m, hm, hp⟩
          · exact .inl heq
          · exact .inr ⟨m, List.mem_cons_of_mem _ hm, hp⟩
      · rcases List.mem_cons.mp hm with rfl | hm
        · rcases List.mem_append.mp hp with hp | hp
          · exact .inr ⟨first, List.mem_cons_self, hp⟩
          · exact .inl (List.mem_singleton.mp hp)
        · exact .inr ⟨mapping, List.mem_cons_of_mem _ hm, hp⟩

/-- The mappings send columns as the pairs say. -/
lemma mem_of_mem_makeSubstitutions {pairs : List (Column × Column)} {mapping : ExprSubstitution}
    (hmapping : mapping ∈ makeSubstitutions pairs) {p : Column × Column} (hp : p ∈ mapping) :
    p ∈ pairs := by
  have hfold : ∀ {pairs : List (Column × Column)} {result : List ExprSubstitution},
      mapping ∈ pairs.foldl addSubstitution result → p ∈ pairs ∨ ∃ m ∈ result, p ∈ m := by
    intro pairs
    induction pairs with
    | nil => exact fun h => .inr ⟨mapping, h, hp⟩
    | cons pair pairs ih =>
        intro result h
        rcases ih h with hmem | ⟨m, hm, hpm⟩
        · exact .inl (List.mem_cons_of_mem _ hmem)
        · rcases mem_addSubstitution hm hpm with rfl | hresult
          · exact .inl List.mem_cons_self
          · exact .inr hresult
  rcases hfold hmapping with hmem | ⟨m, hm, -⟩
  · exact hmem
  · cases hm

variable (engine) in
/-- What a row that meets a join says of a mapping and of the columns it takes not to be NULL. -/
structure Applies (row : Row) (mapping : ExprSubstitution) (nonNullTargets : List Column) :
    Prop where
  notDistinct : ∀ p ∈ mapping, engine.distinctValues p.1.type (engine.eval row (.column p.1))
    (engine.eval row (.column p.2)) = some false
  nonNull : ∀ c ∈ nonNullTargets, engine.eval row (.column c) ≠ .null

/-- The mappings of a join apply to the rows that meet it. -/
lemma Join.applies_of_mem_mappings {join : Join} (hequality : engine.Equality primitive)
    {mapping : ExprSubstitution} {nonNullTargets : List Column}
    (h : (mapping, nonNullTargets) ∈ join.mappings) :
    mapping.KeepsTypes ∧ ∀ row, join.Meets engine row →
      Applies engine row mapping nonNullTargets := by
  have hnonNull : ∀ row, join.Meets engine row → ∀ f : Column × Column → Column,
      (∀ p, f p = p.1 ∨ f p = p.2) → ∀ c ∈ join.nonNullKeys (join.equiColumnPairs.map f),
        engine.eval row (.column c) ≠ .null := by
    intro row hmeets f hf c hc
    unfold Join.nonNullKeys at hc
    split at hc
    · cases hc
    · obtain ⟨p, hp, rfl⟩ := List.mem_map.mp hc
      have hequated := join.equated_of_meets hequality hmeets hp
      rcases hf p with heq | heq
      · exact heq ▸ hequated.left (by simpa using ‹¬ join.nullAsValue = true›)
      · exact heq ▸ hequated.right (by simpa using ‹¬ join.nullAsValue = true›)
  rcases List.mem_append.mp h with h | h
  · obtain ⟨m, hm, heq⟩ := List.mem_map.mp h
    cases heq
    have hswapped : ∀ p ∈ mapping, p.swap ∈ join.equiColumnPairs := by
      intro p hp
      obtain ⟨q, hq, rfl⟩ := List.mem_map.mp (mem_of_mem_makeSubstitutions hm hp)
      rwa [Prod.swap_swap]
    refine ⟨fun p hp => (Join.types_of_mem (hswapped p hp)).symm, fun row hmeets =>
      ⟨fun p hp => ?_, hnonNull row hmeets Prod.fst fun _ => .inl rfl⟩⟩
    have hequated := (join.equated_of_meets hequality hmeets (hswapped p hp)).swap hequality
      (Join.types_of_mem (hswapped p hp))
    rw [Prod.swap_swap] at hequated
    exact hequated.notDistinct
  · obtain ⟨m, hm, heq⟩ := List.mem_map.mp h
    cases heq
    have hpairs : ∀ p ∈ mapping, p ∈ join.equiColumnPairs :=
      fun p hp => mem_of_mem_makeSubstitutions hm hp
    exact ⟨fun p hp => Join.types_of_mem (hpairs p hp), fun row hmeets =>
      ⟨fun p hp => (join.equated_of_meets hequality hmeets (hpairs p hp)).notDistinct,
        hnonNull row hmeets Prod.snd fun _ => .inr rfl⟩⟩

/-! ### Deriving filters -/

/-- A row and what a mapping makes of it are not distinct. -/
lemma Applies.rebind_notDistinct (hequality : engine.Equality primitive) {row : Row}
    {mapping : ExprSubstitution} {nonNullTargets : List Column}
    (h : Applies engine row mapping nonNullTargets) (hmapping : mapping.KeepsTypes)
    (columns : List Column) : engine.NotDistinct columns row (rebind mapping row) := by
  intro c _
  rw [eval_rebind_column hmapping]
  cases hlookup : mapping.lookup c with
  | none => exact hequality.same _ _
  | some target =>
      obtain ⟨before, after, heq, -⟩ := List.lookup_eq_some_iff.mp hlookup
      exact h.notDistinct (c, target) (by rw [heq]; simp)

/-- No column is NULL in this row. -/
lemma eval_column_true_ne_null (c : Column) :
    engine.eval (fun _ => .boolean true) (.column c) ≠ .null := by
  rw [Engine.eval]
  cases c.type <;> exact nofun

/-- A filter rewritten through a mapping and simplified is met by a row where the filter is met by
what the mapping makes of the row. -/
lemma substituted_spec (hsound : registry.Sound engine) (hequality : engine.Equality primitive)
    {nonNullTargets : List Column} {mapping : ExprSubstitution} (hmapping : mapping.KeepsTypes)
    {filter : Expr} (hfilter : Condition filter) {substituted : Expr}
    (hsubstituted : substituted = simplifyNonNull registry volatile primitive nonNullTargets
      (replace registry mapping filter)) :
    Condition substituted ∧ substituted.backed ⊆ filter.backed ∧
      ∀ row, (∀ c ∈ nonNullTargets, engine.eval row (.column c) ≠ .null) →
        (engine.accepts row substituted ↔ engine.accepts (rebind mapping row) filter) := by
  subst hsubstituted
  have hcarries : ∀ row, (∀ c ∈ nonNullTargets, engine.eval row (.column c) ≠ .null) →
      Carries engine (rebind mapping row) row filter (simplifyNonNull registry volatile primitive
        nonNullTargets (replace registry mapping filter)) := by
    intro row hnonNull
    have hreplaced := carries_replace hsound hmapping row filter hfilter.typed
    exact hreplaced.trans (carries_simplifyNonNull hsound hequality hnonNull _ hreplaced.typed)
  have htyped := hcarries (fun _ => .boolean true) fun c _ => eval_column_true_ne_null c
  exact ⟨htyped.condition hfilter, htyped.backed,
    fun row hnonNull => (hcarries row hnonNull).accepts_iff⟩

/-- What is derived from a filter, if anything, is met where the filter is. -/
lemma deriveFilter_spec (hsound : registry.Sound engine) (hcasts : engine.Casts)
    (hequality : engine.Equality primitive) {names : Set String}
    (hkeys : ∀ n ∈ names, StrictMono (engine.key n))
    (hindifferent : engine.Indifferent volatile names)
    (fuel : ℕ) {nonNullTargets : List Column} {mapping : ExprSubstitution}
    (hmapping : mapping.KeepsTypes) {filter : Expr} (hfilter : Condition filter)
    (hnames : ∀ n ∈ filter.backed, n ∈ names) :
    ∃ result, deriveFilter registry volatile primitive fuel nonNullTargets mapping filter =
        .ok result ∧
      ∀ row, Fits row → Applies engine row mapping nonNullTargets →
        result = some [] ∨ Agrees engine row filter result := by
  unfold deriveFilter
  split
  case isTrue => exact ⟨some [], rfl, fun _ _ _ => .inl rfl⟩
  case isFalse hdeterministic =>
    dsimp only
    split
    case isTrue => exact ⟨some [], rfl, fun _ _ _ => .inl rfl⟩
    case isFalse =>
      obtain ⟨hcondition, hbacked, haccepts⟩ := substituted_spec hsound hequality hmapping hfilter
        (rfl : simplifyNonNull registry volatile primitive nonNullTargets
          (replace registry mapping filter) = _)
      obtain ⟨result, hresult, hagrees⟩ := simplifiesFilters_of_strictMono hsound hcasts fuel hkeys
        _ hcondition fun n hn => hnames n (hbacked hn)
      refine ⟨result, hresult, fun row hfits happlies => .inr ?_⟩
      have hsame : engine.accepts row (simplifyNonNull registry volatile primitive nonNullTargets
          (replace registry mapping filter)) ↔ engine.accepts row filter := by
        rw [haccepts row happlies.nonNull]
        exact (hindifferent filter hfilter (by simpa using hdeterministic) hnames row _ hfits
          (fits_rebind hmapping hfits) (happlies.rebind_notDistinct hequality hmapping _)).symm
      have hagree := hagrees row hfits
      cases result with
      | none => exact fun h => hagree (hsame.mpr h)
      | some conjuncts => exact hsame.symm.trans hagree

/-- The copies of a conjunct. -/
lemma copiesOf_spec (hsound : registry.Sound engine) (hcasts : engine.Casts)
    (hequality : engine.Equality primitive) {names : Set String}
    (hkeys : ∀ n ∈ names, StrictMono (engine.key n))
    (hindifferent : engine.Indifferent volatile names)
    (fuel : ℕ) {conjunct : Expr} (hconjunct : Condition conjunct)
    (hnames : ∀ n ∈ conjunct.backed, n ∈ names) :
    {mappings : List (ExprSubstitution × List Column)} → (∀ m ∈ mappings, m.1.KeepsTypes) →
      ∃ result, copiesOf registry volatile primitive fuel conjunct mappings = .ok result ∧
        ∀ row, Fits row → (∀ m ∈ mappings, Applies engine row m.1 m.2) →
          match result with
          | none => ¬ engine.accepts row conjunct
          | some copies => ∀ rewrite ∈ copies, rewrite = [] ∨
              (engine.accepts row conjunct ↔ ∀ e ∈ rewrite, engine.accepts row e)
  | [], _ => ⟨some [], rfl, fun _ _ _ => nofun⟩
  | (mapping, nonNullTargets) :: rest, h => by
      obtain ⟨hmapping, hrest⟩ := List.forall_mem_cons.mp h
      obtain ⟨first, hfirst, hspec⟩ := deriveFilter_spec hsound hcasts hequality hkeys hindifferent
        fuel hmapping hconjunct hnames
      obtain ⟨others, hothers, hcopies⟩ := copiesOf_spec hsound hcasts hequality hkeys hindifferent
        fuel hconjunct hnames hrest
      rw [copiesOf, hfirst, hothers]
      cases first with
      | none =>
          refine ⟨none, rfl, fun row hfits happlies => ?_⟩
          exact (hspec row hfits (happlies _ List.mem_cons_self)).resolve_left nofun
      | some copies =>
          refine ⟨others.map (copies :: ·), rfl, fun row hfits happlies => ?_⟩
          have hothers := hcopies row hfits fun m hm => happlies m (List.mem_cons_of_mem _ hm)
          cases others with
          | none => exact hothers
          | some others =>
              refine List.forall_mem_cons.mpr ⟨?_, hothers⟩
              exact (hspec row hfits (happlies _ List.mem_cons_self)).imp_left Option.some.inj

/-- One round of the derivation: a conjunct is kept, or what is derived from it says the same. -/
lemma accepts_step {join : Join} {row : Row} {conjunct : Expr} {pending kept derived : List Expr}
    {copies : List (List Expr)}
    (hcopies : ∀ rewrite ∈ copies, rewrite = [] ∨
      (engine.accepts row conjunct ↔ ∀ e ∈ rewrite, engine.accepts row e))
    (hrest : (∀ e ∈ pending, engine.accepts row e) ↔ ∀ e ∈ kept ++ derived, engine.accepts row e) :
    (∀ e ∈ conjunct :: pending, engine.accepts row e) ↔
      ∀ e ∈ (if join.readsOneInput conjunct || !join.covered copies then conjunct :: kept
          else kept) ++ (copies.flatten.filter join.readsOneInput ++ derived),
        engine.accepts row e := by
  rw [List.forall_mem_append] at hrest
  rw [List.forall_mem_cons, List.forall_mem_append, List.forall_mem_append, hrest]
  constructor
  · rintro ⟨hconjunct, hkept, hderived⟩
    refine ⟨?_, fun e he => ?_, hderived⟩
    · split
      · exact List.forall_mem_cons.mpr ⟨hconjunct, hkept⟩
      · exact hkept
    · obtain ⟨rewrite, hrewrite, he⟩ := List.mem_flatten.mp (List.mem_of_mem_filter he)
      rcases hcopies rewrite hrewrite with rfl | hiff
      · cases he
      · exact hiff.mp hconjunct e he
  · rintro ⟨hkept, hcopied, hderived⟩
    split at hkept
    case isTrue =>
      obtain ⟨hconjunct, hkept⟩ := List.forall_mem_cons.mp hkept
      exact ⟨hconjunct, hkept, hderived⟩
    case isFalse hdropped =>
      refine ⟨?_, hkept, hderived⟩
      have hcovered : join.covered copies = true := by
        simp only [Bool.or_eq_true, Bool.not_eq_true', not_or, Bool.not_eq_false] at hdropped
        exact hdropped.2
      obtain ⟨rewrite, hrewrite, hreads⟩ := List.any_eq_true.mp hcovered
      obtain ⟨hne, hall⟩ : rewrite ≠ [] ∧ ∀ e ∈ rewrite, join.readsOneInput e = true := by
        simpa using hreads
      refine ((hcopies rewrite hrewrite).resolve_left hne).mpr fun e he => hcopied e ?_
      exact List.mem_filter.mpr ⟨List.mem_flatten.mpr ⟨rewrite, hrewrite, he⟩, hall e he⟩

/-- The conjuncts kept and derived are met together where the pending conjuncts are. -/
lemma derivePending_spec (hsound : registry.Sound engine) (hcasts : engine.Casts)
    (hequality : engine.Equality primitive) {names : Set String}
    (hkeys : ∀ n ∈ names, StrictMono (engine.key n))
    (hindifferent : engine.Indifferent volatile names)
    (fuel : ℕ) (join : Join) :
    {pending : List Expr} → (∀ e ∈ pending, Condition e ∧ ∀ n ∈ e.backed, n ∈ names) →
      ∃ result, derivePending registry volatile primitive fuel join pending = .ok result ∧
        ∀ row, Fits row → join.Meets engine row →
          match result with
          | none => ¬ ∀ e ∈ pending, engine.accepts row e
          | some (kept, derived) => (∀ e ∈ pending, engine.accepts row e) ↔
              ∀ e ∈ kept ++ derived, engine.accepts row e
  | [], _ => ⟨some ([], []), rfl, fun _ _ _ => by simp⟩
  | conjunct :: pending, h => by
      obtain ⟨⟨hconjunct, hnames⟩, hpending⟩ := List.forall_mem_cons.mp h
      obtain ⟨copies, hcopies, hspec⟩ := copiesOf_spec hsound hcasts hequality hkeys hindifferent
        fuel hconjunct hnames fun m hm => (join.applies_of_mem_mappings hequality hm).1
      obtain ⟨others, hothers, hrest⟩ := derivePending_spec hsound hcasts hequality hkeys
        hindifferent fuel join hpending
      rw [derivePending, hcopies, hothers]
      cases copies with
      | none =>
          refine ⟨none, rfl, fun row hfits hmeets hall => ?_⟩
          refine hspec row hfits (fun m hm => ?_) (hall conjunct List.mem_cons_self)
          exact (join.applies_of_mem_mappings hequality hm).2 row hmeets
      | some copies =>
          refine ⟨_, rfl, fun row hfits hmeets => ?_⟩
          have hrow := hrest row hfits hmeets
          have hcopies := hspec row hfits fun m hm =>
            (join.applies_of_mem_mappings hequality hm).2 row hmeets
          cases others with
          | none => exact fun hall => hrow fun e he => hall e (List.mem_cons_of_mem _ he)
          | some others =>
              obtain ⟨kept, derived⟩ := others
              exact accepts_step hcopies hrow

lemma mem_appendDistinct {destination source : List Expr} {e : Expr} :
    e ∈ appendDistinct destination source ↔ e ∈ destination ++ source := by
  induction source generalizing destination with
  | nil => simp [appendDistinct]
  | cons first source ih =>
      have hstep : appendDistinct destination (first :: source) =
          appendDistinct (if first ∈ destination then destination else destination ++ [first])
            source := rfl
      rw [hstep, ih]
      split
      case isTrue hmem =>
        simp only [List.mem_append, List.mem_cons]
        constructor
        · rintro (h | h)
          · exact .inl h
          · exact .inr (.inr h)
        · rintro (h | rfl | h)
          · exact .inl h
          · exact .inl hmem
          · exact .inr h
      case isFalse => simp

/-- A filter of a block: a condition over some BIGINT-backed types that reads the two sides. -/
structure Join.Pending (join : Join) (names : Set String) (pending : List Expr) : Prop where
  condition : ∀ e ∈ pending, Condition e
  backed : ∀ e ∈ pending, ∀ n ∈ e.backed, n ∈ names
  within : ∀ e ∈ pending, e.Within {c | c ∈ join.leftColumns ∨ c ∈ join.rightColumns}

/-- What is left of the filters of a block says of a row that meets the join what the filters say,
what is removed is implied by what is left, and what is derived is implied by the filters. -/
def KeepsRow (engine : Engine) (pending : List Expr) (row : Row) : Option (List Expr) → Prop
  | none => ¬ ∀ e ∈ pending, engine.accepts row e
  | some filters =>
      ((∀ e ∈ pending, engine.accepts row e) ↔ ∀ e ∈ filters, engine.accepts row e) ∧
        (∀ e ∈ pending, e ∉ filters → (∀ e ∈ filters, engine.accepts row e) →
          engine.accepts row e) ∧
        ∀ e ∈ filters, e ∉ pending → (∀ e ∈ pending, engine.accepts row e) →
          engine.accepts row e

/-- Deriving transitive filters is an equivalence: over some BIGINT-backed types, of every join and
all filters on its sides, it passes its checks, and what it leaves keeps the rows. -/
def DerivesTransitive (registry : Registry) (engine : Engine) (volatile : FunctionName → Bool)
    (primitive : String → Bool) (fuel : ℕ) (names : Set String) : Prop :=
  ∀ (join : Join) (pending : List Expr), join.Pending names pending →
    ∃ result, deriveTransitive registry volatile primitive fuel join pending = .ok result ∧
      ∀ row, Fits row → join.Meets engine row → KeepsRow engine pending row result

/-- Types that order their values as integers and conditions that tell no equal values apart are
enough. -/
lemma derivesTransitive_of_indifferent (hsound : registry.Sound engine) (hcasts : engine.Casts)
    (hequality : engine.Equality primitive) (fuel : ℕ) {names : Set String}
    (hkeys : ∀ n ∈ names, StrictMono (engine.key n))
    (hindifferent : engine.Indifferent volatile names) :
    DerivesTransitive registry engine volatile primitive fuel names := by
  intro join pending hpending
  have hkeeps : ∀ {row : Row} {filters : List Expr},
      ((∀ e ∈ pending, engine.accepts row e) ↔ ∀ e ∈ filters, engine.accepts row e) →
        KeepsRow engine pending row (some filters) :=
    fun h => ⟨h, fun e he _ hall => h.mpr hall e he, fun e he _ hall => h.mp hall e he⟩
  unfold deriveTransitive
  split
  case isTrue => exact ⟨some pending, rfl, fun _ _ _ => hkeeps Iff.rfl⟩
  case isFalse =>
    obtain ⟨result, hresult, hspec⟩ := derivePending_spec hsound hcasts hequality hkeys hindifferent
      fuel join fun e he => ⟨hpending.condition e he, hpending.backed e he⟩
    rw [hresult]
    refine ⟨_, rfl, fun row hfits hmeets => ?_⟩
    have hrow := hspec row hfits hmeets
    cases result with
    | none => exact hrow
    | some result =>
        obtain ⟨kept, derived⟩ := result
        refine hkeeps (hrow.trans ?_)
        simp only [mem_appendDistinct]

end

end Verax.Filters
