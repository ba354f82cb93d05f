import Verax.Ctes.CteScope

/-!
# Lexical scoping of CTE names

What a table reference should mean is fixed by where it is written. `Means` says so with a scope
that grows as one reads inward and that the body of a CTE takes from its declaration, wherever the
CTE is referenced from.

* `Query.reads`: the names a query reads from outside.
* `Declaration.free`: those the body of a CTE reads.
* `Means`: the lexical meaning of a body; `Means.unique`: it is one.
-/

namespace Verax.Ctes

/-! ### What a query reads -/

mutual

/-- The names a query reads from outside: those its body reads, and those of the CTEs read there.
The last declarations come first, as each is in force for the ones after it. -/
def Query.reads : Query → List String
  | .mk recursive withQueries body => withQueries.reads recursive body.reads

/-- The names the body of a CTE reads from outside, where the recursive term may read the state of
a loop. -/
def Query.free (loop : Option String) : Query → List String
  | .mk recursive withQueries (.unionAll left right) =>
      withQueries.reads recursive left.reads ++
        (withQueries.reads recursive right.reads).filter (some · ≠ loop)
  | .mk recursive withQueries body => withQueries.reads recursive body.reads

/-- The names read outside a list, given those read after it. -/
def WithList.reads (recursive : Bool) (after : List String) : WithList → List String
  | .nil => after
  | .cons name _ query rest =>
      if name ∈ rest.reads recursive after then
        (rest.reads recursive after).filter (· ≠ name) ++
          query.free (if recursive then some name else none)
      else rest.reads recursive after

/-- The one-part names a body reads. -/
def Body.reads : Body → List String
  | .empty => []
  | .table [name] => [name]
  | .table _ => []
  | .subquery query => query.reads
  | .both left right => left.reads ++ right.reads
  | .unionAll left right => left.reads ++ right.reads

end

/-- Whether the recursive term of a CTE's body reads the CTE. -/
def Query.loops (name : String) : Query → Bool
  | .mk recursive withQueries (.unionAll _ right) =>
      (withQueries.reads recursive right.reads).contains name
  | _ => false

namespace WithList

variable {recursive : Bool}

/-- A name read outside a list is one read after its first CTE, or one that CTE reads. -/
lemma mem_reads_cons {after : List String} {n name : String} {location : ℕ} {query : Query}
    {rest : WithList} :
    n ∈ (cons name location query rest).reads recursive after ↔
      (n ∈ rest.reads recursive after ∧ n ≠ name) ∨
        (name ∈ rest.reads recursive after ∧
          n ∈ query.free (if recursive then some name else none)) := by
  rw [reads]
  split
  case isTrue h => simp [h, List.mem_filter]
  case isFalse h =>
    constructor
    · intro hn
      exact .inl ⟨hn, fun heq => h (heq ▸ hn)⟩
    · rintro (⟨hn, -⟩ | ⟨hname, -⟩)
      · exact hn
      · exact absurd hname h

/-- A name read after a list that does not declare it is read outside the list. -/
lemma mem_reads_of_not_mem_names {after : List String} {n : String} (hn : n ∈ after) :
    (withQueries : WithList) → n ∉ withQueries.names → n ∈ withQueries.reads recursive after
  | .nil, _ => by rwa [reads]
  | .cons name location query rest, h => by
      rw [names, List.mem_cons, not_or] at h
      exact mem_reads_cons.mpr (.inl ⟨mem_reads_of_not_mem_names hn rest h.2, h.1⟩)

/-- What is read outside a list, for the sake of two lists of names, is read for the sake of one. -/
lemma mem_reads_append {a b : List String} {n : String} :
    (withQueries : WithList) → n ∈ withQueries.reads recursive (a ++ b) →
      n ∈ withQueries.reads recursive a ∨ n ∈ withQueries.reads recursive b
  | .nil, h => by simpa only [reads, List.mem_append] using h
  | .cons name location query rest, h => by
      simp only [mem_reads_cons] at h ⊢
      rcases h with ⟨hn, hne⟩ | ⟨hname, hfree⟩
      · exact (mem_reads_append rest hn).imp (fun h => .inl ⟨h, hne⟩) fun h => .inl ⟨h, hne⟩
      · exact (mem_reads_append rest hname).imp (fun h => .inr ⟨h, hfree⟩) fun h => .inr ⟨h, hfree⟩

end WithList

namespace Query

/-- What a query reads is read by a CTE with that query, its own name in a loop apart. -/
lemma mem_free {n : String} {loop : Option String} :
    {q : Query} → n ∈ q.reads → (∀ name, loop = some name → q.loops name = false) →
      n ∈ q.free loop
  | .mk recursive withQueries .empty, h, _ => h
  | .mk recursive withQueries (.table _), h, _ => h
  | .mk recursive withQueries (.subquery _), h, _ => h
  | .mk recursive withQueries (.both _ _), h, _ => h
  | .mk recursive withQueries (.unionAll left right), h, hloop => by
      rw [reads, Body.reads] at h
      rw [free]
      rcases WithList.mem_reads_append withQueries h with hl | hr
      · exact List.mem_append_left _ hl
      · refine List.mem_append_right _ (List.mem_filter.mpr ⟨hr, ?_⟩)
        rcases loop with - | name
        · simp
        · have hnot := hloop name rfl
          simp only [loops, List.contains_eq_mem, decide_eq_false_iff_not] at hnot
          have hne : n ≠ name := fun heq => hnot (heq ▸ hr)
          simpa using hne

/-- Both terms of a recursive body read from outside what their own list does not declare. -/
lemma mem_free_of_left {n : String} {loop : Option String} {left right : Body} :
    {q : Query} → q.body = .unionAll left right → n ∉ q.withQueries.names → n ∈ left.reads →
      n ∈ q.free loop
  | .mk recursive withQueries _, rfl, hlist, h => by
      rw [free]
      exact List.mem_append_left _ (WithList.mem_reads_of_not_mem_names h withQueries hlist)

lemma mem_free_of_right {n : String} {loop : Option String} {left right : Body} :
    {q : Query} → q.body = .unionAll left right → n ∉ q.withQueries.names → n ∈ right.reads →
      some n ≠ loop → n ∈ q.free loop
  | .mk recursive withQueries _, rfl, hlist, h, hloop => by
      rw [free]
      refine List.mem_append_right _ (List.mem_filter.mpr ⟨?_, by simpa using hloop⟩)
      exact WithList.mem_reads_of_not_mem_names h withQueries hlist

end Query

/-! ### Declarations and scopes -/

/-- A CTE with its list. -/
structure Declaration where
  withQuery : WithQuery
  recursive : Bool
  siblings : List String
  index : ℕ

namespace Declaration

variable (d : Declaration)

def name : String := d.withQuery.name

def query : Query := d.withQuery.query

/-- The names declared after it in its list. -/
def later : List String := d.siblings.drop (d.index + 1)

/-- A CTE of a `WITH RECURSIVE` list whose recursive term reads it. -/
def readsItself : Bool := d.recursive && d.query.loops d.name

/-- The names its body reads from outside. -/
def free : List String := d.query.free (if d.recursive then some d.name else none)

/-- The binding the translation makes for it. -/
def entry : Entry :=
  ⟨d.withQuery, d.recursive && d.query.references d.name, d.siblings, d.index⟩

end Declaration

/-- What a name can be bound to: a CTE, or the state of a loop. -/
inductive Binding where
  | cte (d : Declaration)
  | loop (name : String) (location : ℕ)

def Binding.name : Binding → String
  | cte d => d.name
  | loop name _ => name

/-- The bindings visible at a place of the text, the innermost first. -/
abbrev Scope := List Binding

/-- The innermost binding of a name, and the scope where it was made. -/
def Scope.find (n : String) : Scope → Option (Binding × Scope)
  | [] => none
  | b :: Γ => if b.name = n then some (b, Γ) else Scope.find n Γ

/-- The scope after a list. -/
def WithList.scope (recursive : Bool) (siblings : List String) : ℕ → WithList → Scope → Scope
  | _, .nil, Γ => Γ
  | i, .cons name location q rest, Γ =>
      rest.scope recursive siblings (i + 1) (.cte ⟨⟨name, location, q⟩, recursive, siblings, i⟩ :: Γ)

/-- The scope of a query's body. -/
def Query.scope (q : Query) (Γ : Scope) : Scope :=
  q.withQueries.scope q.recursive q.withQueries.names 0 Γ

/-- What a CTE's query reads, when it does not read itself. -/
lemma Declaration.mem_free {d : Declaration} {n : String} (hself : d.readsItself = false)
    (h : n ∈ d.query.reads) : n ∈ d.free := by
  refine Query.mem_free h fun name hname => ?_
  split at hname
  case isTrue hrec =>
    cases hname
    simpa [readsItself, hrec] using hself
  case isFalse => cases hname

/-- A name that a list does not declare is found as before it. -/
lemma WithList.find_scope {recursive : Bool} {siblings : List String} {n : String} :
    (withQueries : WithList) → n ∉ withQueries.names → ∀ {i Γ},
      Scope.find n (withQueries.scope recursive siblings i Γ) = Scope.find n Γ
  | .nil, _, _, _ => rfl
  | .cons name location q rest, h, i, Γ => by
      rw [names, List.mem_cons, not_or] at h
      rw [scope, find_scope rest h.2, Scope.find]
      exact if_neg (Ne.symm h.1)

/-! ### Lexical meaning -/

variable {catalog : Catalog}

variable (catalog) in
/-- The lexical meaning of a body's references. The body of a CTE is read in the scope where the CTE
is declared; its recursive term sees the CTE's own name as the state of the loop; a view's text sees
nothing of the query that uses the view. -/
inductive Means : Scope → Body → Relation → Prop
  | empty {Γ} : Means Γ .empty .empty
  | both {Γ left right l r} : Means Γ left l → Means Γ right r →
      Means Γ (.both left right) (.both l r)
  | unionAll {Γ left right l r} : Means Γ left l → Means Γ right r →
      Means Γ (.unionAll left right) (.unionAll l r)
  | subquery {Γ q r} : Means (q.scope Γ) q.body r → Means Γ (.subquery q) (.subquery r)
  | loop {Γ n location Γ'} : Scope.find n Γ = some (.loop n location, Γ') →
      Means Γ (.table [n]) (.loopState location)
  | cte {Γ n d Γ' r} : Scope.find n Γ = some (.cte d, Γ') → d.readsItself = false →
      Means (d.query.scope Γ') d.query.body r → Means Γ (.table [n]) (.cte d.withQuery.location r)
  | recursive {Γ n d Γ' left right a s} : Scope.find n Γ = some (.cte d, Γ') →
      d.readsItself = true → d.query.body = .unionAll left right →
      Means (d.query.scope Γ') left a →
      Means (d.query.scope (.loop d.name d.withQuery.location :: Γ')) right s →
      Means Γ (.table [n]) (.fixedPoint d.withQuery.location a s)
  | table {Γ name} : (∀ n, name = [n] → Scope.find n Γ = none) → catalog name = some .table →
      Means Γ (.table name) (.table name)
  | view {Γ name text r} : (∀ n, name = [n] → Scope.find n Γ = none) →
      catalog name = some (.view text) → Means (text.scope []) text.body r →
      Means Γ (.table name) (.view name r)

section

variable {Γ Γ' : Scope} {n : String} {d : Declaration} {r : Relation}

lemma means_both {left right : Body} :
    Means catalog Γ (.both left right) r ↔
      ∃ a b, Means catalog Γ left a ∧ Means catalog Γ right b ∧ r = .both a b := by
  constructor
  · intro h
    cases h with
    | both hl hr => exact ⟨_, _, hl, hr, rfl⟩
  · rintro ⟨a, b, hl, hr, rfl⟩
    exact .both hl hr

lemma means_unionAll {left right : Body} :
    Means catalog Γ (.unionAll left right) r ↔
      ∃ a b, Means catalog Γ left a ∧ Means catalog Γ right b ∧ r = .unionAll a b := by
  constructor
  · intro h
    cases h with
    | unionAll hl hr => exact ⟨_, _, hl, hr, rfl⟩
  · rintro ⟨a, b, hl, hr, rfl⟩
    exact .unionAll hl hr

lemma means_subquery {q : Query} :
    Means catalog Γ (.subquery q) r ↔
      ∃ a, Means catalog (q.scope Γ) q.body a ∧ r = .subquery a := by
  constructor
  · intro h
    cases h with
    | subquery h => exact ⟨_, h, rfl⟩
  · rintro ⟨a, h, rfl⟩
    exact .subquery h

lemma means_loop {location : ℕ} (hf : Scope.find n Γ = some (.loop n location, Γ')) :
    Means catalog Γ (.table [n]) r ↔ r = .loopState location := by
  constructor
  · intro h
    cases h with
    | loop hf' => cases hf.symm.trans hf'; rfl
    | cte hf' => cases hf.symm.trans hf'
    | recursive hf' => cases hf.symm.trans hf'
    | table hf' => cases hf.symm.trans (hf' _ rfl)
    | view hf' => cases hf.symm.trans (hf' _ rfl)
  · rintro rfl
    exact .loop hf

lemma means_cte (hf : Scope.find n Γ = some (.cte d, Γ')) (hself : d.readsItself = false) :
    Means catalog Γ (.table [n]) r ↔
      ∃ a, Means catalog (d.query.scope Γ') d.query.body a ∧
        r = .cte d.withQuery.location a := by
  constructor
  · intro h
    cases h with
    | loop hf' => cases hf.symm.trans hf'
    | cte hf' _ h => cases hf.symm.trans hf'; exact ⟨_, h, rfl⟩
    | recursive hf' hself' => cases hf.symm.trans hf'; cases hself.symm.trans hself'
    | table hf' => cases hf.symm.trans (hf' _ rfl)
    | view hf' => cases hf.symm.trans (hf' _ rfl)
  · rintro ⟨a, h, rfl⟩
    exact .cte hf hself h

lemma means_recursive {left right : Body} (hf : Scope.find n Γ = some (.cte d, Γ'))
    (hself : d.readsItself = true) (hbody : d.query.body = .unionAll left right) :
    Means catalog Γ (.table [n]) r ↔
      ∃ a b, Means catalog (d.query.scope Γ') left a ∧
        Means catalog (d.query.scope (.loop d.name d.withQuery.location :: Γ')) right b ∧
        r = .fixedPoint d.withQuery.location a b := by
  constructor
  · intro h
    cases h with
    | loop hf' => cases hf.symm.trans hf'
    | cte hf' hself' => cases hf.symm.trans hf'; cases hself.symm.trans hself'
    | recursive hf' _ hbody' ha hs =>
        cases hf.symm.trans hf'
        cases hbody.symm.trans hbody'
        exact ⟨_, _, ha, hs, rfl⟩
    | table hf' => cases hf.symm.trans (hf' _ rfl)
    | view hf' => cases hf.symm.trans (hf' _ rfl)
  · rintro ⟨a, b, ha, hs, rfl⟩
    exact .recursive hf hself hbody ha hs

/-- The meaning of a name without a binding. -/
lemma means_base {name : List String} (hf : ∀ n, name = [n] → Scope.find n Γ = none) :
    Means catalog Γ (.table name) r ↔
      (catalog name = some .table ∧ r = .table name) ∨
        ∃ text a, catalog name = some (.view text) ∧ Means catalog (text.scope []) text.body a ∧
          r = .view name a := by
  constructor
  · intro h
    cases h with
    | loop hf' => cases (hf _ rfl).symm.trans hf'
    | cte hf' => cases (hf _ rfl).symm.trans hf'
    | recursive hf' => cases (hf _ rfl).symm.trans hf'
    | table _ hc => exact .inl ⟨hc, rfl⟩
    | view _ hc h => exact .inr ⟨_, _, hc, h, rfl⟩
  · rintro (⟨hc, rfl⟩ | ⟨text, a, hc, h, rfl⟩)
    · exact .table hf hc
    · exact .view hf hc h

end

/-- A body has one lexical meaning. -/
theorem Means.unique {Γ : Scope} {b : Body} {r : Relation} (h : Means catalog Γ b r) :
    ∀ {r'}, Means catalog Γ b r' → r = r' := by
  induction h with
  | empty => intro r' h'; cases h'; rfl
  | both _ _ ihl ihr =>
      intro r' h'
      obtain ⟨a, b, ha, hb, rfl⟩ := means_both.mp h'
      rw [ihl ha, ihr hb]
  | unionAll _ _ ihl ihr =>
      intro r' h'
      obtain ⟨a, b, ha, hb, rfl⟩ := means_unionAll.mp h'
      rw [ihl ha, ihr hb]
  | subquery _ ih =>
      intro r' h'
      obtain ⟨a, ha, rfl⟩ := means_subquery.mp h'
      rw [ih ha]
  | loop hf =>
      intro r' h'
      exact ((means_loop hf).mp h').symm
  | cte hf hself _ ih =>
      intro r' h'
      obtain ⟨a, ha, rfl⟩ := (means_cte hf hself).mp h'
      rw [ih ha]
  | recursive hf hself hbody _ _ iha ihs =>
      intro r' h'
      obtain ⟨a, b, ha, hs, rfl⟩ := (means_recursive hf hself hbody).mp h'
      rw [iha ha, ihs hs]
  | table hf hc =>
      intro r' h'
      rcases (means_base hf).mp h' with ⟨-, rfl⟩ | ⟨text, a, hc', -⟩
      · rfl
      · cases hc.symm.trans hc'
  | view hf hc _ ih =>
      intro r' h'
      rcases (means_base hf).mp h' with ⟨hc', -⟩ | ⟨text, a, hc', ha, rfl⟩
      · cases hc.symm.trans hc'
      · cases hc.symm.trans hc'
        rw [ih ha]

/-- Two references to one CTE mean the same relation, wherever they are written. -/
theorem Means.eq_of_same_declaration {Γ₁ Γ₂ Γ' : Scope} {n : String} {d : Declaration}
    {r₁ r₂ : Relation} (h₁ : Scope.find n Γ₁ = some (.cte d, Γ'))
    (h₂ : Scope.find n Γ₂ = some (.cte d, Γ')) (hr₁ : Means catalog Γ₁ (.table [n]) r₁)
    (hr₂ : Means catalog Γ₂ (.table [n]) r₂) : r₁ = r₂ := by
  cases hself : d.readsItself with
  | false =>
      obtain ⟨a, ha, rfl⟩ := (means_cte h₁ hself).mp hr₁
      obtain ⟨b, hb, rfl⟩ := (means_cte h₂ hself).mp hr₂
      rw [ha.unique hb]
  | true =>
      cases hr₁ with
      | loop hf => cases h₁.symm.trans hf
      | cte hf hself' => cases h₁.symm.trans hf; cases hself.symm.trans hself'
      | recursive hf _ hbody ha hs =>
          cases h₁.symm.trans hf
          obtain ⟨a, b, ha', hs', rfl⟩ := (means_recursive h₂ hself hbody).mp hr₂
          rw [ha.unique ha', hs.unique hs']
      | table hf => cases h₁.symm.trans (hf _ rfl)
      | view hf => cases h₁.symm.trans (hf _ rfl)

end Verax.Ctes
