import Verax.Ranking.Rows
import Verax.Lib.Outcome

/-!
# The conjuncts above a window

What a conjunct on the rank column says of a row's number, and how the conjuncts above a window are
divided: the rows that satisfy all of them are those within the bound of the fusion that satisfy the
conjuncts below and above.

* `rankFusionFromPredicate_spec`: the conjunct consumed, the bound and what remains.
* `splitConjuncts_spec`: the division.
-/

namespace Verax.Ranking

open Lib Lib.Rankings Filters

/-! ### Comparisons of ranks -/

/-- The comparisons of two values. -/
def IsComparison (name : FunctionName) : Prop :=
  name = .equality ∨ name = .lt ∨ name = .lte ∨ name = .gt ∨ name = .gte

section comparisons

variable {engine : Engine} {row : Row} {column : Column} {n : ℕ}

lemma eval_column (htype : column.type = .bigint) :
    engine.eval row (.column column) = row column := by
  rw [Engine.eval, htype]
  rfl

lemma compareValues_rankValue (engine : Engine) (name : FunctionName) (i : Integral) :
    engine.compareValues name .bigint (rankValue n) (.integral i) = some true ↔
      (n : ℤ) ≤ 2 ^ 63 - 1 ∧ relation name n i.1 = true := by
  rw [rankValue]
  split_ifs with h
  · simp only [Engine.compareValues, Engine.order, Option.some.injEq]
    exact ⟨fun hrelation => ⟨h, hrelation⟩, And.right⟩
  · simp only [Engine.compareValues, reduceCtorEq, false_iff]
    exact fun hrelation => h hrelation.1

/-- A comparison of a rank with a literal. -/
lemma accepts_comparison (htype : column.type = .bigint) (hrow : row column = rankValue n)
    {name : FunctionName} (hname : IsComparison name) {args : Exprs} {i : Integral}
    (hargs : args.toList = [.column column, .literal (.integral i) .bigint]) {type : SqlType} :
    engine.accepts row (.call name args type) ↔
      (n : ℤ) ≤ 2 ^ 63 - 1 ∧ relation name n i.1 = true := by
  rw [Engine.accepts, Engine.eval_call, Value.truth_conform, hargs, List.map_cons, List.map_cons,
    List.map_cons, List.map_cons, List.map_nil, List.map_nil, eval_column htype, hrow,
    ← compareValues_rankValue engine name i]
  have hcolumn : (Expr.column column).type = .bigint := htype
  have hliteral : engine.eval row (.literal (.integral i) .bigint) = .integral i := rfl
  rw [hcolumn, hliteral]
  rcases hname with rfl | rfl | rfl | rfl | rfl <;> simp [Engine.apply]

/-- A rank in a range. -/
lemma accepts_between (htype : column.type = .bigint) (hrow : row column = rankValue n)
    {args : Exprs} {low high : Integral} (hargs : args.toList =
      [.column column, .literal (.integral low) .bigint, .literal (.integral high) .bigint])
    {type : SqlType} : engine.accepts row (.call .between args type) ↔
      (n : ℤ) ≤ 2 ^ 63 - 1 ∧ low.1 ≤ n ∧ (n : ℤ) ≤ high.1 := by
  rw [Engine.accepts, Engine.eval_call, Value.truth_conform, hargs]
  simp only [List.map_cons, List.map_nil]
  rw [eval_column htype, hrow]
  have hcolumn : (Expr.column column).type = .bigint := htype
  have hlow : engine.eval row (.literal (.integral low) .bigint) = .integral low := rfl
  have hhigh : engine.eval row (.literal (.integral high) .bigint) = .integral high := rfl
  rw [hcolumn, hlow, hhigh]
  simp only [Engine.apply, List.headD_cons, Value.truth_ofTruth, Truth.and_eq_true,
    compareValues_rankValue, relation, decide_eq_true_eq]
  constructor
  · rintro ⟨⟨h, hle⟩, -, hge⟩
    exact ⟨h, hle, hge⟩
  · rintro ⟨h, hle, hge⟩
    exact ⟨⟨h, hle⟩, h, hge⟩

end comparisons

/-! ### The conjunct consumed -/

lemma limitOf_eq_some {name : FunctionName} {bound : ℤ} {limit : ℕ+}
    (h : limitOf name bound = some limit) :
    ((name = .lte ∨ name = .between) ∧ (limit : ℤ) = bound) ∨
      (name = .lt ∧ (limit : ℤ) = bound - 1) ∨ (name = .equality ∧ bound = 1 ∧ limit = 1) := by
  rw [limitOf] at h
  split_ifs at h with hle hlt heq
  · obtain rfl := Option.some.inj h
    exact .inl ⟨hle.1, Int.toNat_of_nonneg hle.2.le⟩
  · obtain rfl := Option.some.inj h
    exact .inr (.inl ⟨hlt.1, Int.toNat_of_nonneg (by omega)⟩)
  · obtain rfl := Option.some.inj h
    exact .inr (.inr ⟨heq.1, heq.2, rfl⟩)

/-- What a conjunct consumed says, given what its remaining part says. -/
structure Consumes (fusion : RankFusion) (rankColumn : Column) (rankFunction : RankFunction)
    (predicate : Expr) : Prop where
  consumedPredicate : fusion.consumedPredicate = some predicate
  rankColumn_eq : fusion.rankColumn = rankColumn
  rankFunction_eq : fusion.rankFunction = rankFunction
  remaining_columns : ∀ q, fusion.remainingPredicate = some q → q.columns = [rankColumn]
  mem_columns : rankColumn ∈ predicate.columns
  limit : ∃ limit, fusion.limit = some limit ∧ ∀ (engine : Engine) (row : Row) (n : ℕ), 1 ≤ n →
    row rankColumn = rankValue n → (engine.accepts row predicate ↔
      n ≤ (limit : ℕ) ∧ ∀ q, fusion.remainingPredicate = some q → engine.accepts row q)

variable (registry : Registry) {rankColumn : Column} {rankFunction : RankFunction}

/-- A fusion consumes what says that a rank is within its limit. -/
lemma consumes_of_fusionOf {predicate : Expr} {remaining : Option Expr} {name : FunctionName}
    {bound : ℤ} {fusion : RankFusion}
    (h : fusionOf predicate remaining rankColumn rankFunction name bound = some fusion)
    (hremaining : ∀ q, remaining = some q → q.columns = [rankColumn])
    (hmem : rankColumn ∈ predicate.columns)
    (haccepts : ∀ limit, limitOf name bound = some limit → (limit : ℕ) ≤ maxLimit →
      ∀ (engine : Engine) (row : Row) (n : ℕ), 1 ≤ n → row rankColumn = rankValue n →
        (engine.accepts row predicate ↔
          n ≤ (limit : ℕ) ∧ ∀ q, remaining = some q → engine.accepts row q)) :
    Consumes fusion rankColumn rankFunction predicate := by
  rw [fusionOf] at h
  split at h
  case h_1 limit hlimit =>
    split_ifs at h with hmax
    obtain rfl := Option.some.inj h
    exact ⟨rfl, rfl, rfl, hremaining, hmem, limit, rfl, haccepts limit hlimit (Nat.not_lt.mp hmax)⟩
  case h_2 => cases h

lemma mem_columns_of_head {args : Exprs} {rest : List Expr}
    (hargs : args.toList = .column rankColumn :: rest) (name : FunctionName) (type : SqlType) :
    rankColumn ∈ (Expr.call name args type).columns := by
  cases args with
  | nil => cases hargs
  | cons head tail =>
    rw [Exprs.toList] at hargs
    rw [(List.cons.inj hargs).1, Expr.columns, Exprs.columns, Expr.columns]
    exact List.mem_union_iff.mpr (.inl List.mem_cons_self)

/-- The literals of a folded comparison of the rank column. -/
lemma Folded.literal {name : FunctionName} {args : Exprs} {type : SqlType}
    (h : Folded (.call name args type)) (hname : IsComparison name ∨ name = .between)
    (hbigint : rankColumn.type = .bigint) {rest : List Expr}
    (hargs : args.toList = .column rankColumn :: rest) {value : Value} {literalType : SqlType}
    (hmem : .literal value literalType ∈ rest) :
    literalType = .bigint ∧ ∃ i, value = .integral i := by
  refine h name args type rfl ?_ rankColumn rest hargs hbigint value literalType hmem
  rcases hname with (hname | hname | hname | hname | hname) | hname <;> simp [hname]

/-- Reading the bound of a comparison. -/
lemma boundFusion_spec {predicate : Expr} {name : FunctionName} {args : Exprs} {type : SqlType}
    (hpredicate : predicate = .call name args type)
    (hname : name = .lte ∨ name = .lt ∨ name = .equality) (hbigint : rankColumn.type = .bigint)
    {i : Integral} (hargs : args.toList = [.column rankColumn, .literal (.integral i) .bigint]) :
    ∃ fusion?, boundFusion predicate rankColumn rankFunction name (.integral i) = .ok fusion? ∧
      ∀ fusion, fusion? = some fusion → Consumes fusion rankColumn rankFunction predicate := by
  refine ⟨_, rfl, fun fusion h => consumes_of_fusionOf h nofun ?_ ?_⟩
  · rw [hpredicate]
    exact mem_columns_of_head hargs name type
  · intro limit hlimit hmax engine row n hn hrow
    have hcomparison : IsComparison name := by
      rcases hname with rfl | rfl | rfl <;> simp [IsComparison]
    rw [hpredicate, accepts_comparison hbigint hrow hcomparison hargs]
    have hmax' : maxLimit = 2 ^ 31 - 1 := rfl
    rcases hname with rfl | rfl | rfl
    · rcases limitOf_eq_some hlimit with ⟨-, h⟩ | ⟨h, -⟩ | ⟨h, -⟩
      · simp only [relation, decide_eq_true_eq, reduceCtorEq, false_implies, implies_true, and_true]
        omega
      · cases h
      · cases h
    · rcases limitOf_eq_some hlimit with ⟨h | h, -⟩ | ⟨-, h⟩ | ⟨h, -⟩
      · cases h
      · cases h
      · simp only [relation, decide_eq_true_eq, reduceCtorEq, false_implies, implies_true, and_true]
        omega
      · cases h
    · rcases limitOf_eq_some hlimit with ⟨h | h, -⟩ | ⟨h, -⟩ | ⟨-, hbound, rfl⟩
      · cases h
      · cases h
      · cases h
      · simp only [relation, decide_eq_true_eq, reduceCtorEq, false_implies, implies_true, and_true,
          PNat.one_coe]
        omega

/-- The remaining part of a range. -/
lemma makeComparison_gte (value : Value) (type : SqlType) :
    makeComparison registry .gte (.column rankColumn) (.literal value type) =
      .apply .gte [.column rankColumn, .literal value type] .boolean := by
  rw [makeComparison, makeCall, canonicalizeCall]
  have hinvert : shouldInvert registry (.column rankColumn) (.literal value type) = false := by
    simp [shouldInvert, Expr.isLiteral]
  cases hreverse : registry.reversibleFunctions .gte with
  | none => rfl
  | some reverse => simp [hinvert]

/-- Reading the bounds of a range. -/
lemma rangeFusion_spec {predicate : Expr} {args : Exprs} {type : SqlType}
    (hpredicate : predicate = .call .between args type) (hbigint : rankColumn.type = .bigint)
    {low high : Integral} (hargs : args.toList = [.column rankColumn,
      .literal (.integral low) .bigint, .literal (.integral high) .bigint]) :
    ∃ fusion?, rangeFusion registry predicate rankColumn rankFunction (.integral low) .bigint
        (.integral high) = .ok fusion? ∧
      ∀ fusion, fusion? = some fusion → Consumes fusion rankColumn rankFunction predicate := by
  refine ⟨_, rfl, fun fusion h => consumes_of_fusionOf h ?_ ?_ ?_⟩
  · intro q hq
    split_ifs at hq with hlow
    rw [← Option.some.inj hq, makeComparison_gte]
    rfl
  · rw [hpredicate]
    exact mem_columns_of_head hargs _ type
  · intro limit hlimit hmax engine row n hn hrow
    rw [hpredicate, accepts_between hbigint hrow hargs]
    have hmax' : maxLimit = 2 ^ 31 - 1 := rfl
    rcases limitOf_eq_some hlimit with ⟨-, hbound⟩ | ⟨h, -⟩ | ⟨h, -⟩
    · split_ifs with hlow
      · simp only [Option.some.injEq, forall_eq']
        rw [makeComparison_gte, Expr.apply, accepts_comparison hbigint hrow (by simp [IsComparison])
          (Exprs.toList_ofList _)]
        simp only [relation, decide_eq_true_eq]
        omega
      · simp only [false_implies, implies_true, and_true]
        omega
    · cases h
    · cases h

/-- The fusion of a conjunct. -/
lemma rankFusionFromPredicate_spec (rankFunction : RankFunction) {predicate : Expr} (hfolded : Folded predicate)
    (hbigint : rankColumn.type = .bigint) :
    ∃ fusion?, rankFusionFromPredicate registry rankColumn rankFunction predicate = .ok fusion? ∧
      ∀ fusion, fusion? = some fusion → Consumes fusion rankColumn rankFunction predicate := by
  unfold rankFusionFromPredicate
  split
  case h_1 name args type =>
    split
    case h_1 arg low lowType high highType hargs =>
      split_ifs with h
      · obtain ⟨rfl, rfl⟩ := h
        obtain ⟨rfl, low, rfl⟩ := hfolded.literal (.inr rfl) hbigint hargs List.mem_cons_self
        obtain ⟨rfl, high, rfl⟩ := hfolded.literal (.inr rfl) hbigint hargs
          (List.mem_cons_of_mem _ List.mem_cons_self)
        exact rangeFusion_spec registry rfl hbigint hargs
      · exact ⟨_, rfl, fun _ hfusion => by cases hfusion⟩
    case h_2 arg value literalType hargs =>
      split_ifs with h
      · obtain ⟨hname, rfl⟩ := h
        have hcomparison : IsComparison name := by
          rcases hname with rfl | rfl | rfl <;> simp [IsComparison]
        obtain ⟨rfl, i, rfl⟩ :=
          hfolded.literal (.inl hcomparison) hbigint hargs List.mem_cons_self
        exact boundFusion_spec rfl hname hbigint hargs
      · exact ⟨_, rfl, fun _ hfusion => by cases hfusion⟩
    case h_3 => exact ⟨_, rfl, fun _ hfusion => by cases hfusion⟩
  case h_2 => exact ⟨_, rfl, fun _ hfusion => by cases hfusion⟩

/-- A conjunct that holds at rank one holds of every row that ranks first. -/
lemma holdsAtRankOne_spec {conjunct : Expr} (hfolded : Folded conjunct)
    (hbigint : rankColumn.type = .bigint) :
    ∃ holds, holdsAtRankOne rankColumn conjunct = .ok holds ∧ (holds = true →
      ∀ (engine : Engine) (row : Row), row rankColumn = rankValue 1 →
        engine.accepts row conjunct) := by
  unfold holdsAtRankOne
  split
  case h_1 name args type =>
    split
    case h_1 arg value literalType hargs =>
      split_ifs with h
      · obtain ⟨hname, rfl⟩ := h
        obtain ⟨rfl, i, rfl⟩ := hfolded.literal (.inl hname) hbigint hargs List.mem_cons_self
        refine ⟨_, rfl, fun hholds engine row hrow => ?_⟩
        rw [accepts_comparison hbigint hrow hname hargs]
        exact ⟨by omega, hholds⟩
      · exact ⟨_, rfl, fun hfalse => by cases hfalse⟩
    case h_2 => exact ⟨_, rfl, fun hfalse => by cases hfalse⟩
  case h_2 => exact ⟨_, rfl, fun hfalse => by cases hfalse⟩

/-- The first conjunct that bounds the ranking. -/
lemma fusionFromPending_spec (rankFunction : RankFunction) (hbigint : rankColumn.type = .bigint) : ∀ {pending : List Expr},
    (∀ p ∈ pending, Folded p) →
      ∃ fusion?, fusionFromPending registry rankColumn rankFunction pending = .ok fusion? ∧
        ∀ fusion, fusion? = some fusion →
          ∃ p ∈ pending, Consumes fusion rankColumn rankFunction p
  | [], _ => ⟨none, rfl, nofun⟩
  | p :: rest, hfolded => by
    obtain ⟨found, hfound, hconsumes⟩ :=
      rankFusionFromPredicate_spec registry rankFunction (hfolded p List.mem_cons_self) hbigint
    obtain ⟨fusion?, hrest, hspec⟩ :=
      fusionFromPending_spec rankFunction hbigint fun q hq => hfolded q (List.mem_cons_of_mem p hq)
    rw [fusionFromPending, hfound]
    cases found with
    | some fusion => exact ⟨_, rfl, fun f hf => ⟨p, List.mem_cons_self, hconsumes f hf⟩⟩
    | none =>
      refine ⟨fusion?, hrest, fun f hf => ?_⟩
      obtain ⟨q, hq, hconsumed⟩ := hspec f hf
      exact ⟨q, List.mem_cons_of_mem p hq, hconsumed⟩

/-- A fusion for a window: its limit is that of a conjunct, or of a limit above, and without order
keys there may be none. -/
structure Detects (functions : List (RankFunction × Column)) (orderKeys : List SortKey)
    (pending : List Expr) (rankLimit : Option ℕ+) (fusion : RankFusion) : Prop where
  functions_eq : functions = [(fusion.rankFunction, fusion.rankColumn)]
  unordered : orderKeys = [] → fusion.rankFunction = .rowNumber
  bound : (∃ p ∈ pending, Consumes fusion fusion.rankColumn fusion.rankFunction p) ∨
    (fusion.consumedPredicate = none ∧ fusion.remainingPredicate = none ∧
      (orderKeys = [] ∧ fusion.limit = none ∨ rankLimit ≠ none ∧ fusion.limit = rankLimit))

/-- What is detected. -/
theorem detectRankFusion_spec {functions : List (RankFunction × Column)} (orderKeys : List SortKey)
    {pending : List Expr} (rankLimit : Option ℕ+) (hbigint : ∀ f ∈ functions, f.2.type = .bigint)
    (hfolded : ∀ p ∈ pending, Folded p) :
    ∃ fusion?, detectRankFusion registry functions orderKeys pending rankLimit = .ok fusion? ∧
      ∀ fusion, fusion? = some fusion → Detects functions orderKeys pending rankLimit fusion := by
  unfold detectRankFusion
  split
  case h_2 => exact ⟨_, rfl, nofun⟩
  case h_1 rankFunction rankColumn =>
    split_ifs with hunordered
    · exact ⟨_, rfl, nofun⟩
    have hordered : orderKeys = [] → rankFunction = .rowNumber := fun h => by
      by_contra hne
      exact hunordered ⟨h, hne⟩
    obtain ⟨fusion?, hpending, hspec⟩ :=
      fusionFromPending_spec registry rankFunction (hbigint _ List.mem_cons_self) hfolded
    rw [hpending]
    cases fusion? with
    | some fusion =>
      refine ⟨_, rfl, fun f hf => ?_⟩
      obtain ⟨p, hp, hconsumes⟩ := hspec f hf
      obtain ⟨hcolumn, hfunction⟩ := And.intro hconsumes.rankColumn_eq hconsumes.rankFunction_eq
      subst hcolumn hfunction
      exact ⟨rfl, hordered, .inl ⟨p, hp, hconsumes⟩⟩
    | none =>
      refine ⟨_, rfl, fun f hf => ?_⟩
      rw [fusionWithoutPredicate] at hf
      split_ifs at hf with hkeys
      · obtain ⟨cap, rfl, rfl⟩ := Option.map_eq_some_iff.mp hf
        exact ⟨rfl, hordered, .inr ⟨rfl, rfl, .inr ⟨nofun, rfl⟩⟩⟩
      · obtain rfl := Option.some.inj hf
        exact ⟨rfl, hordered, .inr ⟨rfl, rfl, .inl ⟨not_not.mp hkeys, rfl⟩⟩⟩

/-! ### The division of the conjuncts -/

/-- A conjunct that every row of a constant rank satisfies. -/
lemma holdsAtConstantRank_spec {constantRank : Option Column}
    (hbigint : ∀ c, constantRank = some c → c.type = .bigint) {p : Expr} (hfolded : Folded p) :
    ∃ holds, holdsAtConstantRank constantRank p = .ok holds ∧ (holds = true →
      ∀ (engine : Engine) (row : Row), (∀ c, constantRank = some c → row c = rankValue 1) →
        engine.accepts row p) := by
  cases constantRank with
  | none => exact ⟨false, rfl, nofun⟩
  | some c =>
    obtain ⟨holds, hholds, hone⟩ := holdsAtRankOne_spec hfolded (hbigint c rfl)
    exact ⟨holds, hholds, fun h engine row hrow => hone h engine row (hrow c rfl)⟩

/-- How the conjuncts above a window are divided. A row satisfies all of them if it satisfies those
that go below and those that stay, and is within the bound. -/
structure Splits (partitionKeys : List Column) (fusion : Option RankFusion)
    (constantRank : Option Column) (pending : List Expr) (split : List Expr × List Expr) : Prop where
  pushable : ∀ p ∈ split.1, p ∈ pending ∧ readsPartitionKeysOnly partitionKeys p = true
  blocked : ∀ p ∈ split.2, p ∈ pending ∨ fusion.bind (·.remainingPredicate) = some p
  accepts : ∀ (engine : Engine) (row : Row) (within : Prop),
    (∀ p, fusion.bind (·.consumedPredicate) = some p → (engine.accepts row p ↔
      within ∧ ∀ q, fusion.bind (·.remainingPredicate) = some q → engine.accepts row q)) →
    (∀ c, constantRank = some c → row c = rankValue 1) →
    ((∀ p ∈ pending, engine.accepts row p) ↔
      ((∃ p ∈ pending, fusion.bind (·.consumedPredicate) = some p) → within) ∧
        (∀ p ∈ split.1, engine.accepts row p) ∧ ∀ p ∈ split.2, engine.accepts row p)

/-- The division of the conjuncts. -/
theorem splitConjuncts_spec (partitionKeys : List Column) (fusion : Option RankFusion)
    (constantRank : Option Column) (hbigint : ∀ c, constantRank = some c → c.type = .bigint) :
    ∀ {pending : List Expr}, (∀ p ∈ pending, Folded p) →
      ∃ split, splitConjuncts partitionKeys fusion constantRank pending = .ok split ∧
        Splits partitionKeys fusion constantRank pending split
  | [], _ => ⟨([], []), rfl, nofun, nofun, fun _ _ _ _ _ => by simp⟩
  | p :: rest, hfolded => by
    obtain ⟨split, hsplit, hspec⟩ := splitConjuncts_spec partitionKeys fusion constantRank hbigint
      fun q hq => hfolded q (List.mem_cons_of_mem p hq)
    have hpushable : ∀ q ∈ split.1, q ∈ p :: rest ∧ readsPartitionKeysOnly partitionKeys q = true :=
      fun q hq => ⟨List.mem_cons_of_mem p (hspec.pushable q hq).1, (hspec.pushable q hq).2⟩
    have hblocked : ∀ q ∈ split.2, q ∈ p :: rest ∨ fusion.bind (·.remainingPredicate) = some q :=
      fun q hq => (hspec.blocked q hq).imp (List.mem_cons_of_mem p) id
    rw [splitConjuncts]
    by_cases hconsumed : fusion.bind (·.consumedPredicate) = some p
    · have hexists : ∃ q ∈ p :: rest, fusion.bind (·.consumedPredicate) = some q :=
        ⟨p, List.mem_cons_self, hconsumed⟩
      rw [if_pos hconsumed, hsplit]
      refine ⟨_, rfl, hpushable, fun q hq => ?_, fun engine row within hfusion hconstant => ?_⟩
      · exact (List.mem_append.mp hq).elim (fun hq => .inr (Option.mem_toList.mp hq)) (hblocked q)
      · have hrest := hspec.accepts engine row within hfusion hconstant
        have hremaining : (∀ q ∈ (fusion.bind (·.remainingPredicate)).toList, engine.accepts row q) ↔
            ∀ q, fusion.bind (·.remainingPredicate) = some q → engine.accepts row q := by
          simp
        rw [List.forall_mem_cons, hrest, hfusion p hconsumed, List.forall_mem_append, hremaining]
        constructor
        · rintro ⟨⟨hwithin, hremaining⟩, -, hbelow, habove⟩
          exact ⟨fun _ => hwithin, hbelow, hremaining, habove⟩
        · rintro ⟨hwithin, hbelow, hremaining, habove⟩
          exact ⟨⟨hwithin hexists, hremaining⟩, fun _ => hwithin hexists, hbelow, habove⟩
    · have hexists : (∃ q ∈ p :: rest, fusion.bind (·.consumedPredicate) = some q) ↔
          ∃ q ∈ rest, fusion.bind (·.consumedPredicate) = some q := by
        simp [hconsumed]
      obtain ⟨holds, hholds, hone⟩ := holdsAtConstantRank_spec hbigint (hfolded p List.mem_cons_self)
      rw [if_neg hconsumed, hholds, hsplit]
      refine ⟨_, rfl, ?_⟩
      rw [placeConjunct]
      split_ifs with hrank hreads
      · refine ⟨hpushable, hblocked, fun engine row within hfusion hconstant => ?_⟩
        rw [List.forall_mem_cons, hspec.accepts engine row within hfusion hconstant, hexists]
        exact and_iff_right (hone hrank engine row hconstant)
      · refine ⟨List.forall_mem_cons.mpr ⟨⟨List.mem_cons_self, hreads⟩, hpushable⟩, hblocked,
          fun engine row within hfusion hconstant => ?_⟩
        rw [List.forall_mem_cons, hspec.accepts engine row within hfusion hconstant, hexists,
          List.forall_mem_cons]
        tauto
      · refine ⟨hpushable, List.forall_mem_cons.mpr ⟨.inl List.mem_cons_self, hblocked⟩,
          fun engine row within hfusion hconstant => ?_⟩
        rw [List.forall_mem_cons, hspec.accepts engine row within hfusion hconstant, hexists,
          List.forall_mem_cons]
        tauto

end Verax.Ranking
