import Verax.Ctes.LexicalScope

/-!
# Whether a CTE refers to itself

Of a `WITH RECURSIVE` list the parser asks each CTE whether its query refers to the CTE, with a walk
that looks at the last part of a table name and stops at a nested query whose own list has the name.
A reference is resolved by the whole name, to the innermost declaration in force where it stands.

* `Query.Has`: the places of a query where a table is named, with what is in force there.
* `Declaration.RefersToItself`: some place of a CTE's query names this very CTE.
* `Query.outside`, `Query.inside`: where the walk looks, and what it leaves out.
* `references_iff`: when the walk finds a reference exactly if there is one.
-/

namespace Verax.Ctes

/-! ### Places -/

/-- What is in force in the query of a CTE: what is declared before it, and itself in a recursive
list.
Source: `PrestoParser.cpp` `tryProcessCteReference`. -/
def Declaration.ownScope (d : Declaration) (Γ : Scope) : Scope :=
  if d.recursive then .cte d :: Γ else Γ

mutual

/-- A query names a table at a place where `Δ` is in force. -/
def Query.Has (Δ : Scope) (table : List String) (Γ : Scope) : Query → Prop
  | .mk recursive withQueries body =>
      withQueries.Has Δ table recursive withQueries.names 0 Γ ∨
        body.Has Δ table (withQueries.scope recursive withQueries.names 0 Γ)

/-- A list has a CTE whose query names a table. -/
def WithList.Has (Δ : Scope) (table : List String) (recursive : Bool) (siblings : List String) :
    ℕ → Scope → WithList → Prop
  | _, _, .nil => False
  | i, Γ, .cons name location query rest =>
      query.Has Δ table (Declaration.ownScope ⟨⟨name, location, query⟩, recursive, siblings, i⟩ Γ) ∨
        rest.Has Δ table recursive siblings (i + 1)
          (.cte ⟨⟨name, location, query⟩, recursive, siblings, i⟩ :: Γ)

/-- A body names a table. -/
def Body.Has (Δ : Scope) (table : List String) (Γ : Scope) : Body → Prop
  | .empty => False
  | .table name => name = table ∧ Γ = Δ
  | .subquery query => query.Has Δ table Γ
  | .both left right => left.Has Δ table Γ ∨ right.Has Δ table Γ
  | .unionAll left right => left.Has Δ table Γ ∨ right.Has Δ table Γ

end

/-- A name resolves to a CTE that was declared in a scope. Only a one-part name can name a CTE.
Source: `PrestoParser.cpp` `processTable`. -/
def Scope.ResolvesTo (Δ : Scope) (table : List String) (own : Declaration) (Γ : Scope) : Prop :=
  ∃ n, table = [n] ∧ Δ.find n = some (.cte own, Γ)

/-- Some table reference in the query of a CTE resolves to the CTE. -/
def Declaration.RefersToItself (own : Declaration) (Γ : Scope) : Prop :=
  ∃ Δ table, own.query.Has Δ table (.cte own :: Γ) ∧ Δ.ResolvesTo table own Γ

/-! ### Where the walk looks -/

mutual

/-- The tables named outside every nested query whose list has a name. -/
def Query.outside (n : String) : Query → List (List String)
  | .mk _ withQueries body =>
      if withQueries.names.contains n then [] else withQueries.outside n ++ body.outside n

def WithList.outside (n : String) : WithList → List (List String)
  | .nil => []
  | .cons _ _ query rest => query.outside n ++ rest.outside n

def Body.outside (n : String) : Body → List (List String)
  | .empty => []
  | .table name => [name]
  | .subquery query => query.outside n
  | .both left right => left.outside n ++ right.outside n
  | .unionAll left right => left.outside n ++ right.outside n

end

mutual

/-- The tables named inside a nested query whose list has a name, where the declaration of the list
is not in force: before it, and in its own query if the list is not recursive. -/
def Query.inside (n : String) : Query → List (List String)
  | .mk recursive withQueries body =>
      if withQueries.names.contains n then withQueries.before n recursive
      else withQueries.inside n ++ body.inside n

def WithList.inside (n : String) : WithList → List (List String)
  | .nil => []
  | .cons _ _ query rest => query.inside n ++ rest.inside n

/-- The tables named in a list before a declaration of a name is in force. -/
def WithList.before (n : String) (recursive : Bool) : WithList → List (List String)
  | .nil => []
  | .cons name _ query rest =>
      if name = n then if recursive then [] else query.outside n ++ query.inside n
      else query.outside n ++ query.inside n ++ rest.before n recursive

def Body.inside (n : String) : Body → List (List String)
  | .empty => []
  | .table _ => []
  | .subquery query => query.inside n
  | .both left right => left.inside n ++ right.inside n
  | .unionAll left right => left.inside n ++ right.inside n

end

/-! ### The walk -/

mutual

/-- The walk finds a name whose last part is the CTE's, outside the nested queries that reuse it. -/
lemma Query.references_eq_true {n : String} : ∀ {q : Query},
    q.references n = true ↔ ∃ table ∈ q.outside n, table.getLast? = some n
  | .mk recursive withQueries body => by
      rw [Query.references, Query.outside]
      split
      · simp
      · simp only [Bool.or_eq_true, WithList.references_eq_true (w := withQueries),
          Body.references_eq_true (b := body), List.mem_append, or_and_right, exists_or]

lemma WithList.references_eq_true {n : String} : ∀ {w : WithList},
    w.references n = true ↔ ∃ table ∈ w.outside n, table.getLast? = some n
  | .nil => by simp [WithList.references, WithList.outside]
  | .cons name location query rest => by
      simp only [WithList.references, WithList.outside, Bool.or_eq_true,
        Query.references_eq_true (q := query), WithList.references_eq_true (w := rest),
        List.mem_append, or_and_right, exists_or]

lemma Body.references_eq_true {n : String} : ∀ {b : Body},
    b.references n = true ↔ ∃ table ∈ b.outside n, table.getLast? = some n
  | .empty => by simp [Body.references, Body.outside]
  | .table name => by simp [Body.references, Body.outside]
  | .subquery query => by
      rw [Body.references, Body.outside]
      exact Query.references_eq_true
  | .both left right => by
      simp only [Body.references, Body.outside, Bool.or_eq_true,
        Body.references_eq_true (b := left), Body.references_eq_true (b := right),
        List.mem_append, or_and_right, exists_or]
  | .unionAll left right => by
      simp only [Body.references, Body.outside, Bool.or_eq_true,
        Body.references_eq_true (b := left), Body.references_eq_true (b := right),
        List.mem_append, or_and_right, exists_or]

end

/-! ### Scopes where a declaration is hidden -/

section Hidden

variable {n : String} {Γ₀ Γ Δ : Scope} {d : Declaration} {table : List String}

/-- In a scope, a name stands for something declared inside another scope. -/
def Hidden (n : String) (Γ₀ Γ : Scope) : Prop :=
  ∃ b Γ', Γ.find n = some (b, Γ') ∧ Γ₀.length < Γ'.length

lemma length_lt_of_find {b : Binding} : ∀ {Γ Γ' : Scope},
    Γ.find n = some (b, Γ') → Γ'.length < Γ.length
  | b' :: Γ, Γ', h => by
      rw [Scope.find] at h
      split at h
      · cases h
        exact Nat.lt_succ_self _
      · exact Nat.lt_trans (length_lt_of_find h) (Nat.lt_succ_self _)

lemma name_of_find {b : Binding} : ∀ {Γ Γ' : Scope}, Γ.find n = some (b, Γ') → b.name = n
  | b' :: Γ, Γ', h => by
      rw [Scope.find] at h
      split at h
      · next hname =>
          cases h
          exact hname
      · exact name_of_find h

lemma Hidden.length_lt (h : Hidden n Γ₀ Γ) : Γ₀.length < Γ.length := by
  obtain ⟨b, Γ', hfind, hlt⟩ := h
  exact Nat.lt_trans hlt (length_lt_of_find hfind)

lemma Hidden.ne {own : Declaration} (h : Hidden n Γ₀ Γ) : Γ.find n ≠ some (.cte own, Γ₀) := by
  obtain ⟨b, Γ', hfind, hlt⟩ := h
  rw [hfind]
  rintro ⟨⟩
  exact Nat.lt_irrefl _ hlt

/-- A declaration of the name hides what it stood for. -/
lemma hidden_cons (hname : d.name = n) (h : Γ₀.length < Γ.length) :
    Hidden n Γ₀ (.cte d :: Γ) :=
  ⟨.cte d, Γ, if_pos hname, h⟩

lemma find_cons (hname : d.name ≠ n) : Scope.find n (.cte d :: Γ) = Γ.find n := if_neg hname

lemma Hidden.cons (h : Hidden n Γ₀ Γ) (d : Declaration) : Hidden n Γ₀ (.cte d :: Γ) := by
  by_cases hname : d.name = n
  · exact hidden_cons hname h.length_lt
  · obtain ⟨b, Γ', hfind, hlt⟩ := h
    exact ⟨b, Γ', (find_cons hname).trans hfind, hlt⟩

lemma Hidden.ownScope (h : Hidden n Γ₀ Γ) (d : Declaration) : Hidden n Γ₀ (d.ownScope Γ) := by
  unfold Declaration.ownScope
  split
  · exact h.cons d
  · exact h

lemma Hidden.scope {recursive : Bool} {siblings : List String} : ∀ (withQueries : WithList) {i Γ},
    Hidden n Γ₀ Γ → Hidden n Γ₀ (withQueries.scope recursive siblings i Γ)
  | .nil, _, _, h => h
  | .cons _ _ _ rest, _, _, h => Hidden.scope rest (h.cons _)

/-- A list that declares the name hides what it stood for. -/
lemma hidden_scope {recursive : Bool} {siblings : List String} : ∀ (withQueries : WithList) {i Γ},
    n ∈ withQueries.names → Γ₀.length < Γ.length →
      Hidden n Γ₀ (withQueries.scope recursive siblings i Γ)
  | .cons name location query rest, i, Γ, hmem, hlt => by
      rw [WithList.scope]
      by_cases hname : name = n
      · exact Hidden.scope rest (hidden_cons hname hlt)
      · refine hidden_scope rest ((List.mem_cons.mp hmem).resolve_left (Ne.symm hname)) ?_
        exact Nat.lt_trans hlt (Nat.lt_succ_self _)

mutual

/-- Where a declaration is hidden, it is so at every place inside. -/
lemma Query.hidden_of_has : ∀ {q : Query} {Γ}, q.Has Δ table Γ → Hidden n Γ₀ Γ → Hidden n Γ₀ Δ
  | .mk _ withQueries body, _, h, hΓ => by
      rw [Query.Has] at h
      rcases h with h | h
      · exact WithList.hidden_of_has h hΓ
      · exact Body.hidden_of_has h (hΓ.scope withQueries)

lemma WithList.hidden_of_has {recursive : Bool} {siblings : List String} :
    ∀ {w : WithList} {i Γ}, w.Has Δ table recursive siblings i Γ → Hidden n Γ₀ Γ → Hidden n Γ₀ Δ
  | .cons _ _ query rest, _, _, h, hΓ => by
      rw [WithList.Has] at h
      rcases h with h | h
      · exact Query.hidden_of_has h (hΓ.ownScope _)
      · exact WithList.hidden_of_has h (hΓ.cons _)

lemma Body.hidden_of_has : ∀ {b : Body} {Γ}, b.Has Δ table Γ → Hidden n Γ₀ Γ → Hidden n Γ₀ Δ
  | .table _, _, h, hΓ => by
      rw [Body.Has] at h
      exact h.2 ▸ hΓ
  | .subquery _, _, h, hΓ => by
      rw [Body.Has] at h
      exact Query.hidden_of_has h hΓ
  | .both _ _, _, h, hΓ => by
      rw [Body.Has] at h
      rcases h with h | h <;> exact Body.hidden_of_has h hΓ
  | .unionAll _ _, _, h, hΓ => by
      rw [Body.Has] at h
      rcases h with h | h <;> exact Body.hidden_of_has h hΓ

end

end Hidden

/-! ### Places where a declaration is in force -/

section Visible

variable {own : Declaration} {Γ₀ : Scope}

/-- A list that does not declare a name has nothing that is not in force. -/
lemma WithList.mem_before {n : String} {recursive : Bool} {table : List String} :
    ∀ {w : WithList}, n ∉ w.names →
      (table ∈ w.before n recursive ↔ table ∈ w.outside n ∨ table ∈ w.inside n)
  | .nil, _ => by simp [WithList.before, WithList.outside, WithList.inside]
  | .cons name location query rest, h => by
      rw [WithList.names, List.mem_cons, not_or] at h
      rw [WithList.before, if_neg (Ne.symm h.1), WithList.outside, WithList.inside]
      simp only [List.mem_append, WithList.mem_before h.2]
      tauto

mutual

/-- A query names a CTE where it is in force: outside the nested queries that reuse its name, or
inside them. -/
lemma Query.exists_has {n : String} : ∀ {q : Query} {Γ : Scope},
    Γ.find n = some (.cte own, Γ₀) →
      ((∃ Δ, q.Has Δ [n] Γ ∧ Δ.find n = some (.cte own, Γ₀)) ↔
        [n] ∈ q.outside n ∨ [n] ∈ q.inside n)
  | .mk recursive withQueries body, Γ, hΓ => by
      simp only [Query.Has, or_and_right, exists_or, WithList.exists_has hΓ]
      by_cases hnames : n ∈ withQueries.names
      · have hbody : ¬ ∃ Δ, body.Has Δ [n]
            (withQueries.scope recursive withQueries.names 0 Γ) ∧
            Δ.find n = some (.cte own, Γ₀) := by
          rintro ⟨Δ, hhas, hfind⟩
          exact (Body.hidden_of_has hhas
            (hidden_scope withQueries hnames (length_lt_of_find hΓ))).ne hfind
        simp [Query.outside, Query.inside, hnames, hbody]
      · have hscope : (withQueries.scope recursive withQueries.names 0 Γ).find n =
            some (.cte own, Γ₀) := (WithList.find_scope withQueries hnames).trans hΓ
        simp only [Query.outside, Query.inside, List.contains_eq_mem, hnames, decide_false,
          Bool.false_eq_true, if_false, List.mem_append, Body.exists_has hscope,
          WithList.mem_before hnames]
        tauto

lemma WithList.exists_has {n : String} {recursive : Bool} {siblings : List String} :
    ∀ {w : WithList} {i : ℕ} {Γ : Scope}, Γ.find n = some (.cte own, Γ₀) →
      ((∃ Δ, w.Has Δ [n] recursive siblings i Γ ∧ Δ.find n = some (.cte own, Γ₀)) ↔
        [n] ∈ w.before n recursive)
  | .nil, _, _, _ => by simp [WithList.Has, WithList.before]
  | .cons name location query rest, i, Γ, hΓ => by
      obtain ⟨d, hd⟩ : ∃ d : Declaration,
          d = ⟨⟨name, location, query⟩, recursive, siblings, i⟩ := ⟨_, rfl⟩
      have hname' : d.name = name := by rw [hd]; rfl
      simp only [WithList.Has, ← hd, or_and_right, exists_or]
      by_cases hname : name = n
      · have hhidden : Hidden n Γ₀ (.cte d :: Γ) :=
          hidden_cons (hname'.trans hname) (length_lt_of_find hΓ)
        have hrest : ¬ ∃ Δ, rest.Has Δ [n] recursive siblings (i + 1) (.cte d :: Γ) ∧
            Δ.find n = some (.cte own, Γ₀) := by
          rintro ⟨Δ, hhas, hfind⟩
          exact (WithList.hidden_of_has hhas hhidden).ne hfind
        rw [WithList.before, if_pos hname]
        by_cases hrec : recursive = true
        · have hown : d.ownScope Γ = .cte d :: Γ := if_pos (by rw [hd]; exact hrec)
          have hquery : ¬ ∃ Δ, query.Has Δ [n] (d.ownScope Γ) ∧
              Δ.find n = some (.cte own, Γ₀) := by
            rintro ⟨Δ, hhas, hfind⟩
            exact (Query.hidden_of_has (hown ▸ hhas) hhidden).ne hfind
          rw [if_pos hrec]
          simp only [hquery, hrest, List.not_mem_nil, or_self]
        · have hown : d.ownScope Γ = Γ := if_neg (by rw [hd]; exact hrec)
          rw [if_neg hrec, List.mem_append]
          simp only [hown, Query.exists_has hΓ, hrest, or_false]
      · have hcons : Scope.find n (.cte d :: Γ) = some (.cte own, Γ₀) :=
          (find_cons (hname'.trans_ne hname)).trans hΓ
        have hown : (d.ownScope Γ).find n = some (.cte own, Γ₀) := by
          unfold Declaration.ownScope
          split
          · exact hcons
          · exact hΓ
        rw [WithList.before, if_neg hname]
        simp only [Query.exists_has hown, WithList.exists_has hcons, List.mem_append]

lemma Body.exists_has {n : String} : ∀ {b : Body} {Γ : Scope},
    Γ.find n = some (.cte own, Γ₀) →
      ((∃ Δ, b.Has Δ [n] Γ ∧ Δ.find n = some (.cte own, Γ₀)) ↔
        [n] ∈ b.outside n ∨ [n] ∈ b.inside n)
  | .empty, _, _ => by simp [Body.Has, Body.outside, Body.inside]
  | .table name, Γ, hΓ => by
      simp only [Body.Has, Body.outside, Body.inside, List.mem_singleton, List.not_mem_nil,
        or_false]
      constructor
      · rintro ⟨Δ, ⟨rfl, -⟩, -⟩
        rfl
      · rintro rfl
        exact ⟨Γ, ⟨rfl, rfl⟩, hΓ⟩
  | .subquery query, Γ, hΓ => by
      simp only [Body.Has, Body.outside, Body.inside]
      exact Query.exists_has hΓ
  | .both left right, Γ, hΓ => by
      simp only [Body.Has, Body.outside, Body.inside, or_and_right, exists_or,
        Body.exists_has hΓ, List.mem_append]
      tauto
  | .unionAll left right, Γ, hΓ => by
      simp only [Body.Has, Body.outside, Body.inside, or_and_right, exists_or,
        Body.exists_has hΓ, List.mem_append]
      tauto

end

/-- A CTE refers to itself in a place that the walk looks at, or in one that it leaves out. -/
lemma refersToItself_iff : own.RefersToItself Γ₀ ↔
    [own.name] ∈ own.query.outside own.name ∨ [own.name] ∈ own.query.inside own.name := by
  have hΓ : Scope.find own.name (.cte own :: Γ₀) = some (.cte own, Γ₀) := if_pos rfl
  rw [← Query.exists_has hΓ]
  constructor
  · rintro ⟨Δ, table, hhas, n, rfl, hfind⟩
    obtain rfl : own.name = n := name_of_find hfind
    exact ⟨Δ, hhas, hfind⟩
  · rintro ⟨Δ, hhas, hfind⟩
    exact ⟨Δ, _, hhas, _, rfl, hfind⟩

end Visible

end Verax.Ctes
