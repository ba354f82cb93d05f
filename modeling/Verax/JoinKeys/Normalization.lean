import Verax.JoinKeys.Equalities

/-!
# Joins deliver what was asked for

A join as it is made delivers the rows of the join that was asked for, provided that the classes of
columns say no more of its inputs than its inputs and its keys do.

* `delivers_withImpliedInputs`: an inner join with filtered inputs and fewer keys.
* `delivers_dropRepeatedKeyPairs`: a join of any type without repeated key pairs.
* `makeAll_delivers`: every node of a sequence of nodes made.
-/

namespace Verax.JoinKeys

open Lib Lib.BagJoin

/-! ### Keys of a row -/

section tuples

variable {V : Type}

/-- What a counting join compares of a row, `f` being the keys of the row. -/
def keyTuple (nullAsValue : Bool) (keys : List (Expr × Expr)) (f : Expr × Expr → Option V) :
    Option (List (Option V)) :=
  if nullAsValue || keys.all fun k => (f k).isSome then some (keys.map f) else none

lemma keyTuple_eq_iff (nullAsValue : Bool) (keys : List (Expr × Expr))
    (f g : Expr × Expr → Option V) :
    keyTuple nullAsValue keys.eraseDups f = keyTuple nullAsValue keys.eraseDups g ↔
      keyTuple nullAsValue keys f = keyTuple nullAsValue keys g := by
  have hall : ∀ f : Expr × Expr → Option V,
      (keys.eraseDups.all fun k => (f k).isSome) = keys.all fun k => (f k).isSome := fun f => by
    rw [Bool.eq_iff_iff]
    simp only [List.all_eq_true, List.mem_eraseDups]
  have hmap : keys.eraseDups.map f = keys.eraseDups.map g ↔ keys.map f = keys.map g := by
    simp only [List.map_inj_left, List.mem_eraseDups]
  rw [keyTuple, keyTuple, keyTuple, keyTuple, hall, hall]
  split_ifs <;> simp [hmap]

lemma isSome_keyTuple (nullAsValue : Bool) (keys : List (Expr × Expr))
    (f : Expr × Expr → Option V) : (keyTuple nullAsValue keys.eraseDups f).isSome =
      (keyTuple nullAsValue keys f).isSome := by
  have hall : (keys.eraseDups.all fun k => (f k).isSome) = keys.all fun k => (f k).isSome := by
    rw [Bool.eq_iff_iff]
    simp only [List.all_eq_true, List.mem_eraseDups]
  rw [keyTuple, keyTuple, hall]
  split_ifs <;> rfl

end tuples

variable {V : Type} [DecidableEq V] {nonDeterministic : NonDeterministic} {run : Run V}

/-! ### Filters -/

/-- Repeated predicates say nothing new. -/
lemma forall_dropRepeatedPredicates {P : Expr → Prop} : ∀ {seen predicates : List Expr},
    (∀ p ∈ seen, P p) →
      ((∀ p ∈ dropRepeatedPredicates nonDeterministic seen predicates, P p) ↔ ∀ p ∈ predicates, P p)
  | _, [], _ => Iff.rfl
  | seen, predicate :: predicates, hseen => by
    rw [dropRepeatedPredicates, List.forall_mem_cons]
    split_ifs with hnonDeterministic hmem
    · rw [List.forall_mem_cons, forall_dropRepeatedPredicates hseen]
    · rw [forall_dropRepeatedPredicates hseen]
      exact ⟨fun h => ⟨hseen _ hmem, h⟩, And.right⟩
    · rw [List.forall_mem_cons]
      refine and_congr_right fun hp => forall_dropRepeatedPredicates ?_
      exact List.forall_mem_cons.mpr ⟨hp, hseen⟩

/-- Predicates that accept the same rows of an input make the same filter. -/
lemma delivers_filter_congr {input : Node} {ps qs : List Expr}
    (h : ∀ bag ∈ run.Delivers input, ∀ row ∈ bag, run.Accepts ps row ↔ run.Accepts qs row) :
    run.Delivers (.filter input ps) = run.Delivers (.filter input qs) := by
  ext out
  refine exists_congr fun bag => and_congr_right fun hbag => ?_
  rw [Multiset.filter_congr (h bag hbag)]

lemma delivers_makeFilter (input : Node) (predicates : List Expr) :
    run.Delivers (makeFilter nonDeterministic input predicates) = run.Delivers (.filter input predicates) :=
  delivers_filter_congr fun _ _ _ _ => forall_dropRepeatedPredicates nofun

/-- The filters that top a node hold of its rows. -/
lemma accepts_applied : ∀ {input : Node} {bag : Multiset (Row V)}, bag ∈ run.Delivers input →
    ∀ row ∈ bag, run.Accepts (applied input) row
  | .filter input predicates, _, hbag, row, hrow => by
    obtain ⟨bag, hinput, rfl⟩ := hbag
    obtain ⟨hmem, haccepts⟩ := Multiset.mem_filter.mp hrow
    exact List.forall_mem_append.mpr ⟨haccepts, accepts_applied hinput row hmem⟩
  | .source _ _, _, _, _, _ => nofun
  | .operator _ _, _, _, _, _ => nofun
  | .project _ _, _, _, _, _ => nofun
  | .join _ _ _, _, _, _, _ => nofun

lemma delivers_withNewConjuncts (input : Node) (conjuncts : List Expr) :
    run.Delivers (withNewConjuncts nonDeterministic input conjuncts) =
      run.Delivers (.filter input conjuncts) := by
  have hfresh : ∀ bag ∈ run.Delivers input, ∀ row ∈ bag,
      run.Accepts (conjuncts.filter (· ∉ applied input)) row ↔ run.Accepts conjuncts row := by
    intro bag hbag row hrow
    refine ⟨fun h p hp => ?_, fun h p hp => h p (List.mem_of_mem_filter hp)⟩
    by_cases happlied : p ∈ applied input
    · exact accepts_applied hbag row hrow p happlied
    · exact h p (List.mem_filter.mpr ⟨hp, decide_eq_true happlied⟩)
  rw [← delivers_filter_congr hfresh, withNewConjuncts]
  split_ifs with hnil
  · rw [hnil]
    ext out
    constructor
    · exact fun hout => ⟨out, hout, (Multiset.filter_eq_self.mpr fun _ _ => nofun).symm⟩
    · rintro ⟨bag, hbag, rfl⟩
      rwa [Multiset.filter_eq_self.mpr fun _ _ => nofun]
  · exact delivers_makeFilter _ _

lemma outputColumns_withNewConjuncts (input : Node) (conjuncts : List Expr) :
    (withNewConjuncts nonDeterministic input conjuncts).outputColumns = input.outputColumns := by
  rw [withNewConjuncts]
  split_ifs <;> rfl

/-! ### Columns of a class -/

/-- The columns of an entry belong to its class, one of those asked for. -/
def EntryOf (equivalence : Column → Option ℕ) (merged : List ℕ) (columns : List Column)
    (entry : ClassColumns) : Prop :=
  entry.1 ∈ merged ∧ ∀ c ∈ entry.2, c ∈ columns ∧ equivalence c = some entry.1

lemma entryOf_addToClass {equivalence : Column → Option ℕ} {merged : List ℕ} {columns : List Column}
    {e : ℕ} {column : Column} (hmerged : e ∈ merged) (hcolumn : column ∈ columns)
    (hclass : equivalence column = some e) : ∀ {entries : List ClassColumns},
      (∀ entry ∈ entries, EntryOf equivalence merged columns entry) →
        ∀ entry ∈ addToClass e column entries, EntryOf equivalence merged columns entry
  | [], _, entry, hentry => by
    obtain rfl := List.mem_singleton.mp hentry
    refine ⟨hmerged, fun c hc => ?_⟩
    obtain rfl := List.mem_singleton.mp hc
    exact ⟨hcolumn, hclass⟩
  | first :: entries, h, entry, hentry => by
    obtain ⟨hfirst, hrest⟩ := List.forall_mem_cons.mp h
    rw [addToClass] at hentry
    split_ifs at hentry with heq
    · rcases List.mem_cons.mp hentry with rfl | hentry
      · refine ⟨hfirst.1, List.forall_mem_append.mpr ⟨hfirst.2, fun c hc => ?_⟩⟩
        obtain rfl := List.mem_singleton.mp hc
        exact ⟨hcolumn, hclass.trans (congrArg some heq.symm)⟩
      · exact hrest entry hentry
    · rcases List.mem_cons.mp hentry with rfl | hentry
      · exact hfirst
      · exact entryOf_addToClass hmerged hcolumn hclass hrest entry hentry

lemma entryOf_byClass (equivalence : Column → Option ℕ) (merged : List ℕ) (columns : List Column) :
    ∀ entry ∈ byClass equivalence merged columns, EntryOf equivalence merged columns entry := by
  unfold byClass
  refine List.foldlRecOn (motive := fun entries : List ClassColumns =>
      ∀ entry ∈ entries, EntryOf equivalence merged columns entry) columns _
    (fun _ hentry => absurd hentry List.not_mem_nil) fun entries hentries column hcolumn => ?_
  cases hclass : equivalence column with
  | none =>
    simp only
    exact hentries
  | some e =>
    simp only
    split_ifs with hmerged
    · exact entryOf_addToClass hmerged hcolumn hclass hentries
    · exact hentries

/-- Columns have one key. -/
def SameKey (run : Run V) (row : Row V) (columns : List Column) : Prop :=
  ∀ c ∈ columns, ∀ d ∈ columns, ∃ k, run.columnKey row c = some k ∧ run.columnKey row d = some k

/-- Columns that have one key satisfy their equalities. -/
lemma accepts_equalities {columns : List Column} {row : Row V} (h : SameKey run row columns) :
    run.Accepts (equalities columns) row := by
  cases columns with
  | nil => exact nofun
  | cons first rest =>
    intro p hp
    obtain ⟨column, hcolumn, rfl⟩ := List.mem_map.mp hp
    exact (truth_makeEq row first column).mpr
      (h _ List.mem_cons_self _ (List.mem_cons_of_mem first hcolumn))

/-- A column that meets the equalities has the key of its anchor. -/
lemma columnKey_anchors {columns : List Column} {row : Row V}
    (h : run.Accepts (equalities columns) row) :
    ∀ entry ∈ anchors columns, run.columnKey row entry.1 = run.columnKey row entry.2 := by
  cases columns with
  | nil => exact nofun
  | cons first rest =>
    intro entry hentry
    obtain ⟨column, hcolumn, hentry⟩ := List.mem_flatMap.mp hentry
    obtain ⟨k, hfirstKey, hcolumnKey⟩ := (truth_makeEq row first column).mp
      (h _ (List.mem_map_of_mem hcolumn))
    simp only [List.mem_cons, List.not_mem_nil, or_false] at hentry
    rcases hentry with rfl | rfl
    · rfl
    · exact hcolumnKey.trans hfirstKey.symm

/-! ### Key pairs -/

lemma mem_of_find_eq_some {enforced : ColumnAnchors} {c anchor : Column}
    (h : enforced.find c = some anchor) : (c, anchor) ∈ enforced := by
  obtain ⟨entry, hentry, rfl⟩ := Option.map_eq_some_iff.mp h
  have hfst : entry.1 = c := by simpa using List.find?_some hentry
  exact hfst ▸ List.mem_of_find?_eq_some hentry

/-- Keys known to be equal are equal. -/
lemma keyOf_of_isEnforcedEqual {enforced : ColumnAnchors} {row : Row V}
    (h : ∀ entry ∈ enforced, run.columnKey row entry.1 = run.columnKey row entry.2) {e e' : Expr}
    (heq : isEnforcedEqual enforced e e' = true) : run.keyOf e row = run.keyOf e' row := by
  by_cases hsame : e = e'
  · rw [hsame]
  · unfold isEnforcedEqual at heq
    rw [if_neg hsame] at heq
    split at heq
    case h_1 l r =>
      obtain ⟨hsome, hfind⟩ := of_decide_eq_true heq
      obtain ⟨anchor, hanchor⟩ := Option.isSome_iff_exists.mp hsome
      have hl := h _ (mem_of_find_eq_some hanchor)
      have hr := h _ (mem_of_find_eq_some (hfind ▸ hanchor))
      exact hl.trans hr.symm
    case h_2 => cases heq

/-- The pairs dropped say what pairs that are kept say. -/
lemma forall_dropEnforced {leftEnforced rightEnforced : ColumnAnchors} {P : Expr × Expr → Prop}
    (h : ∀ k k' : Expr × Expr, isEnforcedEqual leftEnforced k.1 k'.1 = true →
      isEnforcedEqual rightEnforced k.2 k'.2 = true → P k → P k') :
    ∀ {kept pairs : List (Expr × Expr)},
      (∀ k ∈ dropEnforced leftEnforced rightEnforced kept pairs, P k) ↔
        (∀ k ∈ kept, P k) ∧ ∀ k ∈ pairs, P k
  | kept, [] => by simp [dropEnforced]
  | kept, pair :: pairs => by
    rw [dropEnforced, List.forall_mem_cons]
    split_ifs with hredundant
    · rw [forall_dropEnforced h]
      refine and_congr_right fun hkept => ⟨fun hpairs => ⟨?_, hpairs⟩, And.right⟩
      obtain ⟨k, hk, hequal⟩ := List.any_eq_true.mp hredundant
      obtain ⟨hleft, hright⟩ := Bool.and_eq_true_iff.mp hequal
      exact h k pair hleft hright (hkept k hk)
    · rw [forall_dropEnforced h, List.forall_mem_append, List.forall_mem_singleton, and_assoc]

lemma forall_dropEnforcedKeyPairs {leftEnforced rightEnforced : ColumnAnchors}
    {P : Expr × Expr → Prop} (h : ∀ k k' : Expr × Expr, isEnforcedEqual leftEnforced k.1 k'.1 = true →
      isEnforcedEqual rightEnforced k.2 k'.2 = true → P k → P k') {keys : List (Expr × Expr)} :
    (∀ k ∈ dropEnforcedKeyPairs leftEnforced rightEnforced keys, P k) ↔ ∀ k ∈ keys, P k := by
  rw [dropEnforcedKeyPairs]
  split_ifs
  · exact Iff.rfl
  · rw [forall_dropEnforced h]
    exact and_iff_right nofun

/-! ### Repeated key pairs -/

section repeated

variable {left : Node} {J : Join}

/-- Comparisons in a list say what the list says without repetitions. -/
lemma all_map_eraseDups (f : Expr × Expr → Truth) (keys : List (Expr × Expr)) :
    Truth.all (keys.eraseDups.map f) = Truth.all (keys.map f) := by
  refine Truth.ext ?_ ?_
  · simp only [Truth.all_eq_true, List.mem_map, List.mem_eraseDups]
  · simp only [Truth.all_eq_false, List.mem_map, List.mem_eraseDups]

lemma keysEqual_dropRepeatedKeyPairs (l r : Row V) :
    (run.spec left (dropRepeatedKeyPairs J)).keysEqual l r = (run.spec left J).keysEqual l r := by
  rw [keysEqual_spec, keysEqual_spec]
  exact all_map_eraseDups _ J.keys

lemma on_dropRepeatedKeyPairs :
    (run.spec left (dropRepeatedKeyPairs J)).on = (run.spec left J).on := by
  funext l r
  rw [JoinSpec.on, JoinSpec.on, keysEqual_dropRepeatedKeyPairs]
  rfl

lemma countingKey_eq (S : JoinSpec (Row V) V) (keys : List (Expr × Expr)) (sel : Expr × Expr → Expr)
    (row : Row V) : S.countingKey (keys.map fun k => run.keyOf (sel k)) row =
      keyTuple S.nullAsValue keys fun k => run.keyOf (sel k) row := by
  rw [JoinSpec.countingKey, keyTuple, List.all_map, List.map_map]
  rfl

/-- **A repeated key pair is one key pair**, for joins of every type. -/
lemma outcomes_dropRepeatedKeyPairs (A B : Multiset (Row V)) :
    (run.spec left (dropRepeatedKeyPairs J)).outcomes A B = (run.spec left J).outcomes A B := by
  have hkeys : (run.spec left (dropRepeatedKeyPairs J)).keysEqual = (run.spec left J).keysEqual :=
    funext fun l => funext fun r => keysEqual_dropRepeatedKeyPairs l r
  refine JoinSpec.outcomes_congr rfl on_dropRepeatedKeyPairs ?_ ?_ rfl fun keep hkeep => ?_
  · funext B a
    rw [JoinSpec.leftMark, JoinSpec.leftMark, on_dropRepeatedKeyPairs, hkeys]
    rfl
  · funext A b
    rw [JoinSpec.rightMark, JoinSpec.rightMark, on_dropRepeatedKeyPairs, hkeys]
    rfl
  · have hleft : ∀ a, (run.spec left (dropRepeatedKeyPairs J)).countingKey
        (run.spec left (dropRepeatedKeyPairs J)).leftKeys a =
          keyTuple J.nullAsValue J.keys.eraseDups fun k => run.keyOf k.1 a :=
      countingKey_eq _ _ Prod.fst
    have hright : ∀ b, (run.spec left (dropRepeatedKeyPairs J)).countingKey
        (run.spec left (dropRepeatedKeyPairs J)).rightKeys b =
          keyTuple J.nullAsValue J.keys.eraseDups fun k => run.keyOf k.2 b :=
      countingKey_eq _ _ Prod.snd
    have hleft' : ∀ a, (run.spec left J).countingKey (run.spec left J).leftKeys a =
        keyTuple J.nullAsValue J.keys fun k => run.keyOf k.1 a := countingKey_eq _ _ Prod.fst
    have hright' : ∀ b, (run.spec left J).countingKey (run.spec left J).rightKeys b =
        keyTuple J.nullAsValue J.keys fun k => run.keyOf k.2 b := countingKey_eq _ _ Prod.snd
    rw [funext hleft, funext hright, funext hleft', funext hright']
    refine Set.Subset.antisymm (counted_subset ?_ ?_ ?_ ?_ ?_ ?_ A B)
      (counted_subset ?_ ?_ ?_ ?_ ?_ ?_ A B)
    all_goals first
      | exact fun _ _ => keyTuple_eq_iff _ _ _ _
      | exact fun _ _ => (keyTuple_eq_iff _ _ _ _).symm
      | exact fun _ => congrArg keep (isSome_keyTuple _ _ _)
      | exact fun _ => congrArg keep (isSome_keyTuple _ _ _).symm
      | exact fun _ => hkeep _

lemma delivers_dropRepeatedKeyPairs (left right : Node) (J : Join) :
    run.Delivers (.join left right (dropRepeatedKeyPairs J)) = run.Delivers (.join left right J) := by
  ext out
  refine exists_congr fun A => and_congr_right fun _ => exists_congr fun B => and_congr_right fun _ => ?_
  rw [outcomes_dropRepeatedKeyPairs]

end repeated

/-! ### Implied equalities -/

/-- The columns of an entry have one key in the rows that match. -/
def Implied (run : Run V) (Matched : Row V → Prop) (entry : ClassColumns) : Prop :=
  ∀ row, Matched row → SameKey run row entry.2

section inputs

variable {input : Node} {equivalence : Column → Option ℕ} {merged : List ℕ} {row : Row V}

/-- The conjuncts put on an input. -/
def impliedConjuncts (input : Node) (equivalence : Column → Option ℕ) (merged : List ℕ) :
    List Expr :=
  (byClass equivalence merged input.outputColumns).flatMap fun entry =>
    equalities entry.2

lemma delivers_withImpliedEqualities :
    run.Delivers (withImpliedEqualities nonDeterministic input equivalence merged).1 =
      run.Delivers (.filter input (impliedConjuncts input equivalence merged)) :=
  delivers_withNewConjuncts _ _

/-- Rows that match pass the conjuncts put on an input. -/
lemma accepts_impliedConjuncts {Matched : Row V → Prop}
    (h : ∀ entry ∈ byClass equivalence merged input.outputColumns, Implied run Matched entry)
    (hrow : Matched row) :
    run.Accepts (impliedConjuncts input equivalence merged) row := by
  intro p hp
  obtain ⟨entry, hentry, hp⟩ := List.mem_flatMap.mp hp
  exact accepts_equalities (h entry hentry row hrow) p hp

/-- A row that passes the conjuncts has in each column the key of its anchor. -/
lemma columnKey_enforced
    (hrow : run.Accepts (impliedConjuncts input equivalence merged) row) :
    ∀ entry ∈ (withImpliedEqualities nonDeterministic input equivalence merged).2,
      run.columnKey row entry.1 = run.columnKey row entry.2 := by
  intro anchor hanchor
  obtain ⟨entry, hentry, hanchor⟩ := List.mem_flatMap.mp hanchor
  exact columnKey_anchors (fun p hp => hrow p (List.mem_flatMap.mpr ⟨entry, hentry, hp⟩))
    anchor hanchor

end inputs

/-- A join over inputs of the same columns makes the same rows. -/
lemma side_congr {left left' : Node} (h : left'.outputColumns = left.outputColumns) :
    left'.side = left.side := by
  funext c
  rw [Node.side, Node.side, h]

/-- Rows that pass the conjuncts match as before, once keys are dropped. -/
lemma on_dropEnforcedKeyPairs {left newLeft : Node} {J : Join} {leftEnforced rightEnforced : ColumnAnchors}
    (hside : newLeft.side = left.side) {a b : Row V}
    (hl : ∀ entry ∈ leftEnforced, run.columnKey a entry.1 = run.columnKey a entry.2)
    (hr : ∀ entry ∈ rightEnforced, run.columnKey b entry.1 = run.columnKey b entry.2) :
    (run.spec newLeft { J with keys := dropEnforcedKeyPairs leftEnforced rightEnforced J.keys }).on a b
      = (run.spec left J).on a b := by
  have hkeys : (run.spec newLeft
      { J with keys := dropEnforcedKeyPairs leftEnforced rightEnforced J.keys }).keysEqual a b =
        some true ↔ (run.spec left J).keysEqual a b = some true := by
    rw [keysEqual_spec, keysEqual_spec, Truth.all_eq_true, Truth.all_eq_true, List.forall_mem_map,
      List.forall_mem_map]
    refine forall_dropEnforcedKeyPairs fun k k' hleft hright h => ?_
    rw [← keyOf_of_isEnforcedEqual hl hleft, ← keyOf_of_isEnforcedEqual hr hright]
    exact h
  have hfilter : (run.spec newLeft
      { J with keys := dropEnforcedKeyPairs leftEnforced rightEnforced J.keys }).passesFilter a b =
        (run.spec left J).passesFilter a b := by
    rw [JoinSpec.passesFilter, JoinSpec.passesFilter, Run.spec, Run.spec]
    simp only [hside]
  rw [JoinSpec.on, JoinSpec.on, hfilter, Truth.holds, Truth.holds, decide_eq_decide.mpr hkeys]

/-- **An inner join with filtered inputs and fewer keys.** The filters hold of rows that match, and
make the keys dropped equal where the keys kept are. -/
theorem delivers_withImpliedInputs {left right : Node} {J : Join} (hinner : J.joinType = .inner)
    {equivalence : Column → Option ℕ} {merged : List ℕ}
    (hleft : ∀ A ∈ run.Delivers left, ∀ B ∈ run.Delivers right,
      ∀ entry ∈ byClass equivalence merged left.outputColumns, Implied run
        (fun a => a ∈ A ∧ ∃ b ∈ B, (run.spec left J).on a b = true) entry)
    (hright : ∀ A ∈ run.Delivers left, ∀ B ∈ run.Delivers right,
      ∀ entry ∈ byClass equivalence merged right.outputColumns, Implied run
        (fun b => b ∈ B ∧ ∃ a ∈ A, (run.spec left J).on a b = true) entry) :
    run.Delivers (withImpliedInputs nonDeterministic left right J equivalence merged) =
      run.Delivers (.join left right J) := by
  rw [withImpliedInputs]
  set newLeft := withImpliedEqualities nonDeterministic left equivalence merged with hnewLeft
  set newRight := withImpliedEqualities nonDeterministic right equivalence merged with hnewRight
  set J' : Join := { J with keys := dropEnforcedKeyPairs newLeft.2 newRight.2 J.keys } with hJ'
  have hside : newLeft.1.side = left.side := side_congr (outputColumns_withNewConjuncts _ _)
  have houtcomes : ∀ A ∈ run.Delivers left, ∀ B ∈ run.Delivers right,
      (run.spec newLeft.1 J').outcomes
        (A.filter (run.Accepts (impliedConjuncts left equivalence merged)))
        (B.filter (run.Accepts (impliedConjuncts right equivalence merged))) =
      (run.spec left J).outcomes A B := by
    intro A hA B hB
    have hpass : ∀ a ∈ A, ∀ b ∈ B, (run.spec left J).on a b = true →
        run.Accepts (impliedConjuncts left equivalence merged) a ∧
          run.Accepts (impliedConjuncts right equivalence merged) b := fun a ha b hb hon =>
      ⟨accepts_impliedConjuncts (hleft A hA B hB) ⟨ha, b, hb, hon⟩,
        accepts_impliedConjuncts (hright A hA B hB) ⟨hb, a, ha, hon⟩⟩
    have hon : ∀ a ∈ A.filter (run.Accepts (impliedConjuncts left equivalence merged)),
        ∀ b ∈ B.filter (run.Accepts (impliedConjuncts right equivalence merged)),
          (run.spec newLeft.1 J').on a b = (run.spec left J).on a b := fun a ha b hb =>
      on_dropEnforcedKeyPairs hside
        (columnKey_enforced (Multiset.mem_filter.mp ha).2)
        (columnKey_enforced (Multiset.mem_filter.mp hb).2)
    have houtput : (run.spec newLeft.1 J').output = (run.spec left J).output := by
      funext l r mark c
      change run.outputRow newLeft.1 J' l r mark c = run.outputRow left J l r mark c
      rw [Run.outputRow, Run.outputRow, hside]
      rfl
    rw [JoinSpec.outcomes, JoinSpec.outcomes, show (run.spec newLeft.1 J').joinType = .inner from hinner,
      show (run.spec left J).joinType = .inner from hinner]
    simp only [JoinSpec.pairs]
    rw [inner_congr hon, inner_filter hpass, houtput]
  ext out
  constructor
  · rintro ⟨A', hA', B', hB', hout⟩
    rw [delivers_withImpliedEqualities] at hA' hB'
    obtain ⟨A, hA, rfl⟩ := hA'
    obtain ⟨B, hB, rfl⟩ := hB'
    rw [houtcomes A hA B hB] at hout
    exact ⟨A, hA, B, hB, hout⟩
  · rintro ⟨A, hA, B, hB, hout⟩
    rw [← houtcomes A hA B hB] at hout
    refine ⟨_, ?_, _, ?_, hout⟩
    · rw [delivers_withImpliedEqualities]
      exact ⟨A, hA, rfl⟩
    · rw [delivers_withImpliedEqualities]
      exact ⟨B, hB, rfl⟩

/-! ### Made joins -/

/-- **What the classes say of the inputs, the inputs and the keys of the join say.** A key pair whose
columns were in different classes links each of its columns, through the classes and the other key
pairs, to more columns of its input; inner joins and filters of the inputs, and the keys of the join,
connect these with it. -/
def Known (classes : Classes Column) (left right : Node) (J : Join) : Prop :=
  J.joinType = .inner → J.nullKeysMatch = false → ∀ l r, (l, r) ∈ J.columnPairs → ¬classes.Same l r →
    (∀ c ∈ left.outputColumns, classes.Linked J.columnPairs l c →
      J.Connects left.Equates right.Equates (.inl l) (.inl c)) ∧
    ∀ c ∈ right.outputColumns, classes.Linked J.columnPairs r c →
      J.Connects left.Equates right.Equates (.inr r) (.inr c)

section known

variable {classes : Classes Column} {left right : Node} {J : Join}

lemma mem_columnPairs_dropRepeatedKeyPairs {l r : Column} :
    (l, r) ∈ (dropRepeatedKeyPairs J).columnPairs ↔ (l, r) ∈ J.columnPairs := by
  rw [Join.mem_columnPairs, Join.mem_columnPairs]
  exact List.mem_eraseDups

lemma Known.dropRepeatedKeyPairs (h : Known classes left right J) :
    Known classes left right (dropRepeatedKeyPairs J) := by
  have hlinked : ∀ {c d}, classes.Linked (JoinKeys.dropRepeatedKeyPairs J).columnPairs c d →
      classes.Linked J.columnPairs c d := fun hlinked => hlinked.mono fun c d hcd =>
    .rel _ _ (hcd.imp_right mem_columnPairs_dropRepeatedKeyPairs.mp)
  have hconnects : ∀ {x y}, J.Connects left.Equates right.Equates x y →
      (JoinKeys.dropRepeatedKeyPairs J).Connects left.Equates right.Equates x y := by
    have hcompares : ∀ x y, J.Compares x y → (JoinKeys.dropRepeatedKeyPairs J).Compares x y := by
      rintro (x | x) (y | y) h
      · exact h
      · exact ⟨h.1, mem_columnPairs_dropRepeatedKeyPairs.mpr h.2⟩
      · exact h
      · exact h
    intro x y hxy
    exact Relation.EqvGen.mono (fun x y hstep => Or.imp_right (hcompares x y) hstep) x y hxy
  intro hinner hstrict l r hpair happart
  obtain ⟨hleft, hright⟩ := h hinner hstrict l r (mem_columnPairs_dropRepeatedKeyPairs.mp hpair) happart
  exact ⟨fun c hc hc' => hconnects (hleft c hc (hlinked hc')),
    fun c hc hc' => hconnects (hright c hc (hlinked hc'))⟩

/-- A join that tells NULLs apart pairs rows whose keys are not NULL. -/
lemma exists_key_of_on (hstrict : J.nullKeysMatch = false) {l r : Column}
    (hpair : (l, r) ∈ J.columnPairs) {a b : Row V} (hon : (run.spec left J).on a b = true) :
    ∃ k, run.columnKey a l = some k ∧ run.columnKey b r = some k := by
  have hkeys : (run.spec left J).keysEqual a b = some true :=
    of_decide_eq_true (Bool.and_eq_true_iff.mp hon).1
  rw [keysEqual_spec, Truth.all_eq_true] at hkeys
  have hkey := hkeys _ (List.mem_map_of_mem (J.mem_columnPairs.mp hpair))
  have hequal : run.columnKey a l = run.columnKey b r := eq_of_keyEqual hkey
  have hnull : (run.spec left J).nullAsValue = false := (Bool.or_eq_false_iff.mp hstrict).2
  rw [JoinSpec.keyEqual, hnull, if_neg Bool.false_ne_true] at hkey
  cases hl : run.columnKey a l with
  | none =>
    rw [show run.keyOf (.column l) a = none from hl] at hkey
    cases hkey
  | some k => exact ⟨k, rfl, hequal.symm.trans hl⟩

/-- The classes that key pairs merged hold columns that the key pairs link. -/
lemma exists_linked_of_byClass {columns : List Column} {entry : ClassColumns}
    (hentry : entry ∈ byClass (classes.mergeAll J.columnPairs).2.classOf
      (classes.mergeAll J.columnPairs).1 columns) :
    entry.2 = [] ∨ ∃ l r, (l, r) ∈ J.columnPairs ∧ ¬classes.Same l r ∧ ∀ c ∈ entry.2,
      c ∈ columns ∧ classes.Linked J.columnPairs l c ∧ classes.Linked J.columnPairs r c := by
  obtain ⟨hmerged, hcolumns⟩ := entryOf_byClass _ _ _ entry hentry
  rcases List.eq_nil_or_concat entry.2 with hnil | ⟨_, first, hfirst⟩
  · exact .inl hnil
  · have hmem : first ∈ entry.2 := by simp [hfirst]
    obtain ⟨⟨l, r⟩, hpair, happart, hl, hr⟩ :=
      Classes.exists_of_mem_mergeAll hmerged (hcolumns first hmem).2
    refine .inr ⟨l, r, hpair, happart, fun c hc => ⟨(hcolumns c hc).1, ?_, ?_⟩⟩
    · exact Classes.linked_of_same_mergeAll ⟨entry.1, hl, (hcolumns c hc).2⟩
    · exact Classes.linked_of_same_mergeAll ⟨entry.1, hr, (hcolumns c hc).2⟩

/-- Connected columns have the same key in rows that match. -/
lemma sideKey_of_on {A B : Multiset (Row V)} (hA : A ∈ run.Delivers left) (hB : B ∈ run.Delivers right)
    {a b : Row V} (ha : a ∈ A) (hb : b ∈ B) (hon : (run.spec left J).on a b = true)
    {x y : Column ⊕ Column} (h : J.Connects left.Equates right.Equates x y) :
    run.sideKey (some a) (some b) x = run.sideKey (some a) (some b) y :=
  sideKey_of_connects (fun _ _ => equates_sound hA ha) (fun _ _ => equates_sound hB hb)
    (of_decide_eq_true (Bool.and_eq_true_iff.mp hon).1) h

lemma delivers_normalized_inner (hinner : J.joinType = .inner) (hstrict : J.nullKeysMatch = false)
    (hknown : Known classes left right J) :
    run.Delivers (withImpliedInputs nonDeterministic left right J (classes.mergeAll J.columnPairs).2.classOf
      (classes.mergeAll J.columnPairs).1) = run.Delivers (.join left right J) := by
  refine delivers_withImpliedInputs hinner (fun A hA B hB entry hentry => ?_)
    (fun A hA B hB entry hentry => ?_)
  · rcases exists_linked_of_byClass hentry with hnil | ⟨l, r, hpair, happart, hlinked⟩
    · rw [Implied, hnil]
      exact fun _ _ => nofun
    · rintro a ⟨ha, b, hb, hon⟩
      obtain ⟨k, hl, -⟩ := exists_key_of_on hstrict hpair hon
      have hkey : ∀ c ∈ entry.2, run.columnKey a c = some k := fun c hc =>
        have hconnects := (hknown hinner hstrict l r hpair happart).1 c (hlinked c hc).1 (hlinked c hc).2.1
        (sideKey_of_on hA hB ha hb hon hconnects).symm.trans hl
      exact fun c hc d hd => ⟨k, hkey c hc, hkey d hd⟩
  · rcases exists_linked_of_byClass hentry with hnil | ⟨l, r, hpair, happart, hlinked⟩
    · rw [Implied, hnil]
      exact fun _ _ => nofun
    · rintro b ⟨hb, a, ha, hon⟩
      obtain ⟨k, -, hr⟩ := exists_key_of_on hstrict hpair hon
      have hkey : ∀ c ∈ entry.2, run.columnKey b c = some k := fun c hc =>
        have hconnects := (hknown hinner hstrict l r hpair happart).2 c (hlinked c hc).1 (hlinked c hc).2.2
        (sideKey_of_on hA hB ha hb hon hconnects).symm.trans hr
      exact fun c hc d hd => ⟨k, hkey c hc, hkey d hd⟩

/-- **A join as it is made delivers what was asked for.** -/
theorem delivers_normalizeKey (hknown : Known classes left right J) :
    run.Delivers (normalizeKey nonDeterministic classes left right J).1 =
      run.Delivers (.join left right J) := by
  rw [← delivers_dropRepeatedKeyPairs left right J]
  unfold normalizeKey
  simp only
  split_ifs with hinner hplain
  · rfl
  · rfl
  · obtain ⟨-, hstrict⟩ := not_or.mp hplain
    exact delivers_normalized_inner (not_not.mp hinner) (Bool.eq_false_of_not_eq_true hstrict)
      hknown.dropRepeatedKeyPairs

end known

/-! ### Sequences of nodes -/

/-- A join is asked for over inputs that are known to be as the classes say. -/
def Request.Known (classes : Classes Column) : Request → Prop
  | .join left right J => JoinKeys.Known classes left right J
  | _ => True

/-- The inputs of a node are nodes made before. -/
def Request.Over (nodes : List Node) (request : Request) : Prop :=
  ∀ input ∈ request.inputs, input ∈ nodes

instance (nodes : List Node) (request : Request) : Decidable (request.Over nodes) :=
  inferInstanceAs (Decidable (∀ input ∈ request.inputs, input ∈ nodes))

namespace Builder

variable (nonDeterministic)

/-- Each step of a sequence is one of some steps. -/
def Steps (P : Builder → Request → Prop) : Builder → List Request → Prop
  | _, [] => True
  | builder, request :: requests =>
      P builder request ∧ Steps P (builder.make nonDeterministic request).2 requests

/-- Every node of a sequence delivers, in every database, what was asked for. -/
def MakesWhatIsAsked (requests : List Request) : Prop :=
  ∀ (V : Type) [DecidableEq V] (run : Run V), ∀ made ∈ start.makeAll nonDeterministic requests,
    run.Delivers made.2 = run.Delivers made.1.node

variable {nonDeterministic}

/-- A node delivers what was asked for. -/
lemma delivers_makeNode {builder : Builder} {request : Request}
    (h : request.Known builder.classes) :
    run.Delivers (builder.makeNode nonDeterministic request).1 = run.Delivers request.node := by
  cases request with
  | filter input predicates => exact delivers_makeFilter input predicates
  | join left right J => exact delivers_normalizeKey h
  | _ => rfl

/-- **Every node of a sequence delivers what was asked for**, if at each join the classes say no more
of the inputs than the inputs and the keys of the join do. -/
theorem makesWhatIsAsked_of_known {requests : List Request}
    (h : Steps nonDeterministic (fun builder request => request.Known builder.classes) start requests) :
    MakesWhatIsAsked nonDeterministic requests := by
  intro V _ run
  have hall : ∀ (requests : List Request) (builder : Builder),
      Steps nonDeterministic (fun builder request => request.Known builder.classes) builder requests →
      ∀ made ∈ builder.makeAll nonDeterministic requests,
        run.Delivers made.2 = run.Delivers made.1.node := by
    intro requests
    induction requests with
    | nil => exact fun _ _ => nofun
    | cons request requests ih =>
      rintro builder ⟨hknown, hsteps⟩ made hmade
      rcases List.mem_cons.mp hmade with rfl | hmade
      · exact delivers_makeNode hknown
      · exact ih _ hsteps made hmade
  exact hall requests start h

end Builder

/-! ### Orders counted before they are joined -/

namespace Orders

def x : Column := 0

def y : Column := 1

def a : Column := 2

def c : Column := 3

def n : Column := 4

def orders : Node := .source 0 [x, y]

def accounts : Node := .source 1 [a]

def countries : Node := .source 2 [c]

def innerJoin (keys : List (Column × Column)) (outputColumns : List Column) : Join where
  joinType := .inner
  keys := keys.map fun key => (.column key.1, .column key.2)
  filter := []
  nullAware := false
  nullAsValue := false
  outputColumns
  sourceColumns := []

/-- Orders and the accounts that are theirs in both columns. -/
def joined : List Request :=
  [.source 0 [x, y], .source 1 [a], .join orders accounts (innerJoin [(x, a), (y, a)] [x, y, a])]

theorem joined_as_asked : Builder.MakesWhatIsAsked (fun _ => false) joined := by
  refine Builder.makesWhatIsAsked_of_known ⟨trivial, trivial, ?_, trivial⟩
  have haccount : ∀ c ∈ [x, y], (innerJoin [(x, a), (y, a)] [x, y, a]).Connects orders.Equates
      accounts.Equates (.inl c) (.inr a) := by
    intro c hc
    simp only [List.mem_cons, List.not_mem_nil, or_false] at hc
    rcases hc with rfl | rfl
    · exact .rel _ _ (.inr ⟨rfl, by decide⟩)
    · exact .rel _ _ (.inr ⟨rfl, by decide⟩)
  intro _ _ l r hpair _
  have hpair : (l, r) ∈ [(x, a), (y, a)] := hpair
  have hl : l ∈ [x, y] ∧ r = a := by
    simp only [List.mem_cons, Prod.mk.injEq, List.not_mem_nil, or_false] at hpair ⊢
    rcases hpair with ⟨rfl, rfl⟩ | ⟨rfl, rfl⟩ <;> simp
  refine ⟨fun c hc _ => .trans _ _ _ (haccount l hl.1) (.symm _ _ (haccount c hc)), fun c hc _ => ?_⟩
  obtain rfl : c = a := List.mem_singleton.mp hc
  rw [hl.2]
  exact .refl _

/-- Orders with the number of orders of known countries, and then the accounts that are theirs in both
columns: once the join with the countries gets its key, it is made again. -/
def counted : List Request :=
  let crossed := Node.join orders countries (innerJoin [] [x, y, c])
  let known := Node.filter crossed [.equality x c]
  let window := Node.operator ⟨0, [x, y, n], [x, y]⟩ known
  [.source 0 [x, y], .source 1 [a], .source 2 [c], .join orders countries (innerJoin [] [x, y, c]),
    .filter crossed [.equality x c], .operator ⟨0, [x, y, n], [x, y]⟩ known,
    .join window accounts (innerJoin [(x, a), (y, a)] [x, y, n, a]),
    .join orders countries (innerJoin [(x, c)] [x, y])]

/-- One order, of a country that is known, and of two different accounts. -/
def oneOrder : Run ℕ where
  rows id := {{fun column => if id = 0 ∧ column = y then some 2 else some 1}}
  operate _ _ := ∅
  passes _ _ _ h := h.elim
  value _ _ := none
  key := some
  ofTruth t := t.map fun b => if b then 1 else 0
  truth v := v.map (· = 1)
  truth_ofTruth t := by rcases t with - | - | - <;> rfl

/-- The join with the countries, made again, loses the order. -/
theorem counted_not_as_asked :
    Builder.Steps (fun _ => false) (fun builder request => request.Over builder.nodes) .start counted ∧
      ¬Builder.MakesWhatIsAsked (fun _ => false) counted := by
  refine ⟨⟨by decide, by decide, by decide, by decide, by decide, by decide, by decide, by decide,
    trivial⟩, fun h => ?_⟩
  have hlast := h ℕ oneOrder
    (.join orders countries (innerJoin [(x, c)] [x, y]),
      .join (.filter orders [.equality x y]) countries (innerJoin [(x, c)] [x, y]))
    (List.mem_of_getElem? (i := 7) rfl)
  have hasked : ∃ out ∈ oneOrder.Delivers (.join orders countries (innerJoin [(x, c)] [x, y])),
      out ≠ 0 :=
    ⟨_, ⟨_, rfl, _, rfl, rfl⟩, fun h => absurd (congrArg Multiset.card h) (by decide)⟩
  have hmade : ∀ out ∈ oneOrder.Delivers
      (.join (.filter orders [.equality x y]) countries (innerJoin [(x, c)] [x, y])), out = 0 := by
    rintro out ⟨A, ⟨bag, rfl, rfl⟩, B, rfl, rfl⟩
    exact Multiset.card_eq_zero.mp (by decide)
  obtain ⟨out, hout, hne⟩ := hasked
  exact hne (hmade out (hlast ▸ hout))

end Orders

end Verax.JoinKeys
