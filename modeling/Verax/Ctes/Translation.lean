import Verax.Ctes.LexicalScope

/-!
# When the translation resolves names lexically

The translation resolves the body of a CTE in the stacks of the reference, with some bindings
hidden. `Stack` keeps the stacks as one list, in the order the bindings were made, with the hidden
ones marked; a reference is `Undisturbed` when, below the marks, what it needs is as it was at the
declaration.

* `Represents`: a state of the translation and the list it comes from.
* `Visits`: the references a translation comes to.
* `translation_lexical`: a translation all of whose references are undisturbed gives the lexical
  meaning, and reports a missing table only where there is no lexical meaning.
-/

namespace Verax.Ctes

open Lib.StateExcept

/-! ### The stacks as one list -/

/-- A binding made on the way to a place: a CTE, visible or hidden, or the state of a loop. -/
inductive Slot where
  | cte (d : Declaration) (visible : Bool)
  | loop (name : String) (location : ℕ)

namespace Slot

def name : Slot → String
  | cte d _ => d.name
  | loop name _ => name

def visible : Slot → Bool
  | cte _ visible => visible
  | loop _ _ => true

end Slot

/-- The bindings made on the way to a place, the innermost first. -/
abbrev Stack := List Slot

namespace Stack

variable (n : String)

/-- The loop a name stands for, if no CTE of the name was declared inside the loop. -/
def anchor : Stack → Option ℕ
  | [] => none
  | .cte d _ :: S => if d.name = n then none else anchor S
  | .loop name location :: S => if name = n then some location else anchor S

/-- The visible CTEs of a name, each with what was bound before it. -/
def declared : Stack → List (Declaration × Stack)
  | [] => []
  | .cte d visible :: S =>
      if d.name = n ∧ visible = true then (d, S) :: declared S else declared S
  | .loop _ _ :: S => declared S

/-- Hides the innermost visible CTE of a name. -/
def hide : Stack → Stack
  | [] => []
  | .cte d visible :: S =>
      if d.name = n ∧ visible = true then .cte d false :: S else .cte d visible :: hide S
  | .loop name location :: S => .loop name location :: hide S

/-- The bindings the translation has for a name. -/
def entries (S : Stack) : List Entry := (S.declared n).map fun p => p.1.entry

/-- What is left in force while the body of a CTE is translated. -/
def hideAll (d : Declaration) (S : Stack) : Stack :=
  d.later.foldl (fun S m => S.hide m) (S.hide d.name)

/-- What is left in force while a view's text is translated. -/
def withoutLoops : Stack → Stack
  | [] => []
  | .cte d visible :: S => .cte d visible :: withoutLoops S
  | .loop _ _ :: S => withoutLoops S

variable {n}

lemma entries_cons_cte (d : Declaration) (visible : Bool) (S : Stack) :
    entries n (.cte d visible :: S) =
      if d.name = n ∧ visible = true then d.entry :: S.entries n else S.entries n := by
  simp only [entries, declared]
  split <;> rfl

lemma entries_cons_loop (name : String) (location : ℕ) (S : Stack) :
    entries n (.loop name location :: S) = S.entries n := rfl

/-- Hiding a name takes its innermost binding away, and no other. -/
lemma entries_hide (m : String) :
    (S : Stack) → (S.hide m).entries n = if n = m then (S.entries n).tail else S.entries n
  | [] => by simp [hide, entries, declared]
  | .loop name location :: S => by
      rw [hide, entries_cons_loop, entries_cons_loop, entries_hide m S]
  | .cte d visible :: S => by
      rw [hide]
      split
      case isTrue h =>
        obtain ⟨rfl, rfl⟩ := h
        rw [entries_cons_cte, entries_cons_cte]
        by_cases hn : n = d.name
        · subst hn; simp
        · simp [hn, Ne.symm hn]
      case isFalse h =>
        rw [entries_cons_cte, entries_cons_cte, entries_hide m S]
        by_cases hn : n = m
        · subst hn; simp [h]
        · simp [hn]

/-- Hiding a CTE leaves the loops as they are. -/
lemma anchor_hide (m : String) : (S : Stack) → (S.hide m).anchor n = S.anchor n
  | [] => rfl
  | .loop name location :: S => by rw [hide, anchor, anchor, anchor_hide m S]
  | .cte d visible :: S => by
      rw [hide]
      split
      · rfl
      · rw [anchor, anchor, anchor_hide m S]

lemma anchor_withoutLoops : (S : Stack) → S.withoutLoops.anchor n = none
  | [] => rfl
  | .loop name location :: S => by rw [withoutLoops, anchor_withoutLoops S]
  | .cte d visible :: S => by rw [withoutLoops, anchor, anchor_withoutLoops S, ite_self]

lemma entries_withoutLoops : (S : Stack) → S.withoutLoops.entries n = S.entries n
  | [] => rfl
  | .loop name location :: S => by rw [withoutLoops, entries_cons_loop, entries_withoutLoops S]
  | .cte d visible :: S => by
      rw [withoutLoops, entries_cons_cte, entries_cons_cte, entries_withoutLoops S]

lemma declared_withoutLoops {S : Stack} (h : S.declared n = []) :
    S.withoutLoops.declared n = [] := by
  have hentries : S.withoutLoops.entries n = [] := by rw [entries_withoutLoops, entries, h]; rfl
  exact List.map_eq_nil_iff.mp hentries

/-- A declared CTE is found under its name. -/
lemma name_of_declared {d : Declaration} {S' : Stack} :
    {S : Stack} → (d, S') ∈ S.declared n → d.name = n
  | .loop name location :: S, h => name_of_declared (S := S) h
  | .cte d' visible :: S, h => by
      rw [declared] at h
      split at h
      case isTrue hn =>
        rcases List.mem_cons.mp h with heq | h
        · cases heq; exact hn.1
        · exact name_of_declared h
      case isFalse => exact name_of_declared h

/-- Below bindings that hide nothing of a name, the CTEs of the name are found as before. -/
lemma declared_append {T : Stack} :
    (P : Stack) → (∀ slot ∈ P, slot.visible = true → slot.name ≠ n) →
      declared n (P ++ T) = declared n T
  | [], _ => rfl
  | .loop name location :: P, h =>
      declared_append P fun slot hs => h slot (List.mem_cons_of_mem _ hs)
  | .cte d visible :: P, h => by
      rw [List.cons_append, declared, if_neg]
      · exact declared_append P fun slot hs => h slot (List.mem_cons_of_mem _ hs)
      · rintro ⟨hn, hv⟩
        exact h _ List.mem_cons_self hv hn

/-- Below bindings of other names, a loop is found as before. -/
lemma anchor_append {T : Stack} :
    (P : Stack) → (∀ slot ∈ P, slot.name ≠ n) → anchor n (P ++ T) = anchor n T
  | [], _ => rfl
  | .loop name location :: P, h => by
      have hne : name ≠ n := h _ List.mem_cons_self
      rw [List.cons_append, anchor, if_neg hne]
      exact anchor_append P fun slot hs => h slot (List.mem_cons_of_mem _ hs)
  | .cte d visible :: P, h => by
      have hne : d.name ≠ n := h _ List.mem_cons_self
      rw [List.cons_append, anchor, if_neg hne]
      exact anchor_append P fun slot hs => h slot (List.mem_cons_of_mem _ hs)

/-- Hidden bindings bring no loop up. -/
lemma anchor_append_none {T : Stack} (hT : T.anchor n = none) :
    (P : Stack) → (∀ slot ∈ P, slot.visible = true → slot.name ≠ n) → anchor n (P ++ T) = none
  | [], _ => hT
  | .loop name location :: P, h => by
      have hne : name ≠ n := h _ List.mem_cons_self rfl
      rw [List.cons_append, anchor, if_neg hne]
      exact anchor_append_none hT P fun slot hs => h slot (List.mem_cons_of_mem _ hs)
  | .cte d visible :: P, h => by
      rw [List.cons_append, anchor,
        anchor_append_none hT P fun slot hs => h slot (List.mem_cons_of_mem _ hs), ite_self]

end Stack

/-! ### The state a stack stands for -/

/-- A state of the translation has the bindings and the loops of a stack. -/
structure Represents (s : CteScope) (S : Stack) : Prop where
  bindings : ∀ n, s.bindings n = S.entries n
  anchors : ∀ n, s.anchorFor n = S.anchor n

lemma lookup_filter_ne (name n : String) :
    (anchors : List (String × ℕ)) →
      (anchors.filter fun a => a.1 ≠ name).lookup n =
        if name = n then none else anchors.lookup n
  | [] => by simp
  | (m, location) :: anchors => by
      have ih := lookup_filter_ne name n anchors
      by_cases hm : m = name
      · subst hm
        rw [List.filter_cons_of_neg (by simp), ih]
        by_cases hn : m = n
        · simp [hn]
        · rw [if_neg hn, if_neg hn, List.lookup_cons, beq_false_of_ne (Ne.symm hn)]
      · rw [List.filter_cons_of_pos (by simpa using hm), List.lookup_cons, List.lookup_cons, ih]
        by_cases hn : name = n
        · subst hn
          rw [beq_false_of_ne (Ne.symm hm), if_pos rfl]
        · rw [if_neg hn, if_neg hn]

namespace Represents

variable {s : CteScope} {S : Stack}

lemma initial : Represents {} [] := ⟨fun _ => rfl, fun _ => rfl⟩

lemma bind (h : Represents s S) (d : Declaration) :
    Represents (s.bind d.name d.entry) (.cte d true :: S) where
  bindings n := by
    rw [Stack.entries_cons_cte]
    by_cases hn : d.name = n
    · subst hn
      simp [CteScope.bind, h.bindings]
    · simp [CteScope.bind, h.bindings, hn, Ne.symm hn]
  anchors n := by
    show (s.anchors.filter fun a => a.1 ≠ d.name).lookup n = Stack.anchor n (.cte d true :: S)
    rw [lookup_filter_ne, Stack.anchor, ← h.anchors]
    rfl

lemma pop (h : Represents s S) (n : String) : Represents (s.pop n) (S.hide n) where
  bindings m := by
    rw [Stack.entries_hide, ← h.bindings]
    rfl
  anchors m := by
    rw [Stack.anchor_hide, ← h.anchors]
    rfl

lemma pushAnchor (h : Represents s S) (name : String) (location : ℕ) :
    Represents (s.pushAnchor name location) (.loop name location :: S) where
  bindings := h.bindings
  anchors n := by
    show ((name, location) :: s.anchors).lookup n = _
    rw [Stack.anchor, ← h.anchors, List.lookup_cons]
    by_cases hn : name = n
    · simp [hn]
    · rw [beq_false_of_ne (Ne.symm hn), if_neg hn]
      rfl

lemma withoutLoops (h : Represents s S) :
    Represents { s with anchors := [] } S.withoutLoops where
  bindings n := by rw [Stack.entries_withoutLoops, ← h.bindings]
  anchors n := by
    rw [Stack.anchor_withoutLoops]
    rfl

end Represents

/-! ### References and their condition -/

/-- The stack after a list. -/
def WithList.stack (recursive : Bool) (siblings : List String) : ℕ → WithList → Stack → Stack
  | _, .nil, S => S
  | i, .cons name location q rest, S =>
      rest.stack recursive siblings (i + 1)
        (.cte ⟨⟨name, location, q⟩, recursive, siblings, i⟩ true :: S)

/-- The stack of a query's body. -/
def Query.stack (q : Query) (S : Stack) : Stack :=
  q.withQueries.stack q.recursive q.withQueries.names 0 S

/-- A name with neither a loop nor a CTE. -/
def Stack.Unbound (S : Stack) (name : List String) : Prop :=
  ∀ n, name = [n] → S.anchor n = none ∧ S.declared n = []

section

variable (catalog : Catalog)

/-- The references that the translation of a body comes to, each with the stack there. -/
inductive Visits : Stack → Body → Stack → List String → Prop
  | here {S name} : Visits S (.table name) S name
  | bothLeft {S left right T name} : Visits S left T name → Visits S (.both left right) T name
  | bothRight {S left right T name} : Visits S right T name → Visits S (.both left right) T name
  | unionLeft {S left right T name} : Visits S left T name → Visits S (.unionAll left right) T name
  | unionRight {S left right T name} : Visits S right T name →
      Visits S (.unionAll left right) T name
  | subquery {S q T name} : Visits (q.stack S) q.body T name → Visits S (.subquery q) T name
  | cte {S n d S' T name} : S.anchor n = none → (S.declared n).head? = some (d, S') →
      d.entry.isRecursive = false → Visits (d.query.stack (S.hideAll d)) d.query.body T name →
      Visits S (.table [n]) T name
  | anchorTerm {S n d S' left right T name} : S.anchor n = none →
      (S.declared n).head? = some (d, S') → d.entry.isRecursive = true →
      d.query.body = .unionAll left right → Visits (S.hideAll d) left T name →
      Visits S (.table [n]) T name
  | recursiveTerm {S n d S' left right T name} : S.anchor n = none →
      (S.declared n).head? = some (d, S') → d.entry.isRecursive = true →
      d.query.body = .unionAll left right →
      Visits (.loop d.name d.withQuery.location :: S.hideAll d) right T name →
      Visits S (.table [n]) T name
  | view {S base text T name} : S.Unbound base → catalog base = some (.view text) →
      Visits (text.stack S.withoutLoops) text.body T name → Visits S (.table base) T name

/-- At a reference to a CTE, what its body reads is as it was at its declaration, where `S'` was
bound: hiding the CTE and the later ones of its list touched nothing below the declaration, what was
bound since and is still visible has none of the names the body reads, and it displaced none of the
loops the body reads. Further, the search for self-references saw what the body reads, and a
recursive body has no `WITH` list of its own that it reads. -/
structure Declaration.AsDeclared (d : Declaration) (S S' : Stack) : Prop where
  below : ∃ P, S.hideAll d = P ++ .cte d false :: S' ∧
    (∀ slot ∈ P, slot.visible = true → slot.name ∉ d.free) ∧
    ∀ m ∈ d.free, S'.anchor m ≠ none → d.name ≠ m ∧ ∀ slot ∈ P, slot.name ≠ m
  references : d.entry.isRecursive = d.readsItself
  ownList : d.readsItself = true → ∀ n ∈ d.query.withQueries.names, n ∉ d.query.body.reads

/-- A reference that finds what its body needs: a CTE as it was declared, or a view none of whose
names is a CTE in force. -/
structure Undisturbed (S : Stack) (name : List String) : Prop where
  cte : ∀ n d S', name = [n] → S.anchor n = none → (S.declared n).head? = some (d, S') →
    d.AsDeclared S S'
  view : ∀ text, S.Unbound name → catalog name = some (.view text) →
    ∀ m ∈ text.reads, S.declared m = []

/-! ### Stacks and scopes -/

/-- A name means the same in a stack as in a scope: the same loop, or the same CTE with, for the
names its body reads, the same below. -/
inductive Matches : Stack → Scope → String → Prop
  | unbound {S Γ n} : S.anchor n = none → S.declared n = [] → Scope.find n Γ = none →
      Matches S Γ n
  | loop {S Γ n location Γ'} : S.anchor n = some location →
      Scope.find n Γ = some (.loop n location, Γ') → Matches S Γ n
  | cte {S Γ n d S' Γ'} : S.anchor n = none → (S.declared n).head? = some (d, S') →
      Scope.find n Γ = some (.cte d, Γ') → (∀ m ∈ d.free, Matches S' Γ' m) → Matches S Γ n

namespace Matches

variable {S T : Stack} {Γ Δ : Scope} {n : String}

/-- Only what the name finds matters. -/
lemma congr (h : Matches S Γ n) (ha : T.anchor n = S.anchor n)
    (hd : T.declared n = S.declared n) (hf : Scope.find n Δ = Scope.find n Γ) :
    Matches T Δ n := by
  cases h with
  | unbound h₁ h₂ h₃ => exact .unbound (ha.trans h₁) (hd.trans h₂) (hf.trans h₃)
  | loop h₁ h₂ => exact .loop (ha.trans h₁) (hf.trans h₂)
  | cte h₁ h₂ h₃ h₄ => exact .cte (ha.trans h₁) (hd ▸ h₂) (hf.trans h₃) h₄

/-- After a CTE is declared. -/
lemma declare {d : Declaration} (hself : n = d.name → ∀ m ∈ d.free, Matches S Γ m)
    (hother : n ≠ d.name → Matches S Γ n) : Matches (.cte d true :: S) (.cte d :: Γ) n := by
  by_cases hn : n = d.name
  · subst hn
    have hhead : (Stack.declared d.name (.cte d true :: S)).head? = some (d, S) := by
      simp [Stack.declared]
    refine .cte ?_ hhead ?_ (hself rfl)
    · simp [Stack.anchor]
    · simp [Scope.find, Binding.name]
  · refine (hother hn).congr ?_ ?_ ?_
    · simp [Stack.anchor, Ne.symm hn]
    · simp [Stack.declared, Ne.symm hn]
    · simp [Scope.find, Binding.name, Ne.symm hn]

/-- Inside a loop. -/
lemma enter {name : String} {location : ℕ} (h : n ≠ name → Matches S Γ n) :
    Matches (.loop name location :: S) (.loop name location :: Γ) n := by
  by_cases hn : n = name
  · subst hn
    have hanchor : Stack.anchor n (.loop n location :: S) = some location := by
      simp [Stack.anchor]
    have hfind : Scope.find n (.loop n location :: Γ) = some (.loop n location, Γ) := by
      simp [Scope.find, Binding.name]
    exact .loop hanchor hfind
  · refine (h hn).congr ?_ rfl ?_
    · simp [Stack.anchor, Ne.symm hn]
    · simp [Scope.find, Binding.name, Ne.symm hn]

/-- After a list, for a name read after it. -/
lemma list {recursive : Bool} {siblings after : List String} :
    (withQueries : WithList) → ∀ {i S Γ},
      (∀ m ∈ withQueries.reads recursive after, Matches S Γ m) → ∀ m ∈ after,
      Matches (withQueries.stack recursive siblings i S) (withQueries.scope recursive siblings i Γ) m
  | .nil, i, S, Γ, h, m, hm => h m (by rwa [WithList.reads])
  | .cons name location q rest, i, S, Γ, h, m, hm => by
      refine list rest (fun k hk => ?_) m hm
      refine declare (fun heq k' hk' => ?_) fun hne => ?_
      · have hname : name ∈ rest.reads recursive after := by
          rw [heq] at hk
          exact hk
        exact h k' (WithList.mem_reads_cons.mpr (.inr ⟨hname, hk'⟩))
      · exact h k (WithList.mem_reads_cons.mpr (.inl ⟨hk, hne⟩))

/-- Below undisturbed bindings. -/
lemma asDeclared {d : Declaration} {S S' : Stack} (h : d.AsDeclared S S') {m : String}
    (hm : m ∈ d.free) (hmatch : Matches S' Γ m) : Matches (S.hideAll d) Γ m := by
  obtain ⟨P, hP, hvisible, hloops⟩ := h.below
  have hfree : ∀ slot ∈ P ++ [.cte d false], slot.visible = true → slot.name ≠ m := by
    intro slot hslot hv heq
    rcases List.mem_append.mp hslot with hs | hs
    · exact hvisible slot hs hv (heq ▸ hm)
    · cases List.mem_singleton.mp hs
      cases hv
  have hsplit : S.hideAll d = (P ++ [.cte d false]) ++ S' := by simp [hP]
  rw [hsplit]
  refine hmatch.congr ?_ (Stack.declared_append _ hfree) rfl
  by_cases hloop : S'.anchor m = none
  · rw [hloop, Stack.anchor_append_none hloop _ hfree]
  · refine Stack.anchor_append _ fun slot hslot => ?_
    rcases List.mem_append.mp hslot with hs | hs
    · exact (hloops m hm hloop).2 slot hs
    · cases List.mem_singleton.mp hs
      exact (hloops m hm hloop).1

end Matches

/-! ### Hiding and restoring -/

lemma exec_hide (n : String) (s : CteScope) :
    exec (hide n) s = (.ok (s.bindings n).head?, s.pop n) := rfl

/-- Restoring what was hidden gives the state before. -/
lemma exec_restore (n : String) (s : CteScope) :
    exec (restore n (s.bindings n).head?) (s.pop n) = (.ok ⟨⟩, s) := by
  have hcases : ∀ entries, s.bindings n = entries →
      exec (restore n entries.head?) (s.pop n) = (.ok ⟨⟩, s) := by
    intro entries hentries
    cases entries with
    | nil =>
        refine Prod.ext rfl ?_
        show s.pop n = s
        refine congrArg (fun b => (⟨b, s.anchors⟩ : CteScope)) (funext fun m => ?_)
        split
        case isTrue hm => rw [hm, hentries]; rfl
        case isFalse => rfl
    | cons entry entries =>
        refine Prod.ext rfl ?_
        show (s.pop n).push n entry = s
        refine congrArg (fun b => (⟨b, s.anchors⟩ : CteScope)) (funext fun m => ?_)
        split
        case isTrue hm => simp [CteScope.pop, hm, hentries]
        case isFalse hm => simp [CteScope.pop, hm]
  exact hcases _ rfl

/-- From `s`, a translation gives a relation with `R` and leaves the state as it was; it misses a
table only if no relation has `R`. -/
def Settles (s : CteScope) (m : Planner Relation) (R : Relation → Prop) : Prop :=
  Runs s m (fun r s' => s' = s ∧ R r) fun e => ∀ name, e = .tableNotFound name → ∀ r, ¬ R r

namespace Settles

variable {s : CteScope} {m m' : Planner Relation} {R R' Q : Relation → Prop}

lemma map {f : Relation → Relation} (h : Settles s m R) (hf : ∀ r, Q r ↔ ∃ a, R a ∧ r = f a) :
    Settles s (do let a ← m; return f a) Q := by
  refine Runs.bind h (fun a s' ha => ?_) fun e he name hname r hr => ?_
  · exact Runs.pure ⟨ha.1, (hf _).mpr ⟨a, ha.2, rfl⟩⟩
  · obtain ⟨a, ha, -⟩ := (hf r).mp hr
    exact he name hname a ha

lemma map₂ {f : Relation → Relation → Relation} (h : Settles s m R) (h' : Settles s m' R')
    (hf : ∀ r, Q r ↔ ∃ a b, R a ∧ R' b ∧ r = f a b) :
    Settles s (do let a ← m; let b ← m'; return f a b) Q := by
  refine Runs.bind h (fun a s' ha => ?_) fun e he name hname r hr => ?_
  · obtain ⟨rfl, ha⟩ := ha
    refine Runs.bind h' (fun b s'' hb => ?_) fun e he name hname r hr => ?_
    · exact Runs.pure ⟨hb.1, (hf _).mpr ⟨a, b, ha, hb.2, rfl⟩⟩
    · obtain ⟨-, b, -, hb, -⟩ := (hf r).mp hr
      exact he name hname b hb
  · obtain ⟨a, -, ha, -⟩ := (hf r).mp hr
    exact he name hname a ha

/-- Names hidden for the time of a translation. -/
lemma hidingAll :
    (names : List String) → ∀ {s : CteScope} {S : Stack}, Represents s S →
      (∀ s', Represents s' (names.foldl (fun S n => S.hide n) S) → Settles s' m R) →
      Settles s (hidingAll m names) R
  | [], s, S, hS, h => h s hS
  | n :: names, s, S, hS, h => by
      refine Runs.bind_ok (exec_hide n s) ?_
      refine Runs.bind (hidingAll names (hS.pop n) h) (fun r s' hr => ?_) fun e he => he
      obtain ⟨rfl, hr⟩ := hr
      exact Runs.bind_ok (exec_restore n s) (Runs.pure ⟨rfl, hr⟩)

end Settles

/-! ### One query and one reference -/

section

variable {catalog} {table : List String → Planner Relation} {query : Query → Planner Relation}

variable (catalog table) in
/-- The translation of table references gives their lexical meaning. -/
def TableSettles : Prop :=
  ∀ ⦃name S Γ s⦄, Represents s S → (∀ n, name = [n] → Matches S Γ n) →
    (∀ T name', Visits catalog S (.table name) T name' → Undisturbed catalog T name') →
    Settles s (table name) (Means catalog Γ (.table name))

variable (catalog query) in
/-- The translation of queries gives their lexical meaning. -/
def QuerySettles : Prop :=
  ∀ ⦃q S Γ s⦄, Represents s S → (∀ n ∈ q.reads, Matches S Γ n) →
    (∀ T name, Visits catalog (q.stack S) q.body T name → Undisturbed catalog T name) →
    Settles s (query q) (Means catalog (q.scope Γ) q.body)

/-- A body, reference by reference. -/
lemma settles_processBody (htable : TableSettles catalog table)
    (hquery : QuerySettles catalog query) :
    (b : Body) → ∀ {S Γ s}, Represents s S → (∀ n ∈ b.reads, Matches S Γ n) →
      (∀ T name, Visits catalog S b T name → Undisturbed catalog T name) →
      Settles s (processBody table query b) (Means catalog Γ b)
  | .empty, S, Γ, s, _, _, _ => Runs.pure ⟨rfl, .empty⟩
  | .table name, S, Γ, s, hS, hmatch, hvisit => by
      refine htable hS (fun n hn => hmatch n ?_) hvisit
      rw [hn, Body.reads]
      exact List.mem_singleton_self n
  | .subquery q, S, Γ, s, hS, hmatch, hvisit =>
      (hquery hS hmatch fun T name h => hvisit T name (.subquery h)).map fun _ => means_subquery
  | .both left right, S, Γ, s, hS, hmatch, hvisit => by
      rw [Body.reads] at hmatch
      refine Settles.map₂ (settles_processBody htable hquery left hS ?_ ?_)
        (settles_processBody htable hquery right hS ?_ ?_) fun _ => means_both
      · exact fun n hn => hmatch n (List.mem_append_left _ hn)
      · exact fun T name h => hvisit T name (.bothLeft h)
      · exact fun n hn => hmatch n (List.mem_append_right _ hn)
      · exact fun T name h => hvisit T name (.bothRight h)
  | .unionAll left right, S, Γ, s, hS, hmatch, hvisit => by
      rw [Body.reads] at hmatch
      refine Settles.map₂ (settles_processBody htable hquery left hS ?_ ?_)
        (settles_processBody htable hquery right hS ?_ ?_) fun _ => means_unionAll
      · exact fun n hn => hmatch n (List.mem_append_left _ hn)
      · exact fun T name h => hvisit T name (.unionLeft h)
      · exact fun n hn => hmatch n (List.mem_append_right _ hn)
      · exact fun T name h => hvisit T name (.unionRight h)

/-- Declaring a list brings its bindings in force, in order. -/
lemma exec_bindAll {recursive : Bool} {siblings : List String} :
    (withQueries : WithList) → ∀ {i s S}, Represents s S →
      ∃ s', exec (bindAll recursive siblings i withQueries) s = (.ok ⟨⟩, s') ∧
        Represents s' (withQueries.stack recursive siblings i S)
  | .nil, _, s, _, hS => ⟨s, rfl, hS⟩
  | .cons name location q rest, i, _, _, hS =>
      exec_bindAll rest
        (hS.bind ⟨⟨name, location, q⟩, recursive, siblings, i⟩)

/-- A query, from its list to its body. -/
lemma settles_processQueryWith (htable : TableSettles catalog table)
    (hquery : QuerySettles catalog query) :
    QuerySettles catalog (processQueryWith table query) := by
  intro q S Γ s hS hmatch hvisit
  refine Runs.get_bind ?_
  cases repeatedName [] q.withQueries.names with
  | some name => exact Runs.throw (fun _ h => by cases h)
  | none =>
      obtain ⟨s', hs', hS'⟩ := exec_bindAll q.withQueries hS
      refine Runs.bind_ok hs' ?_
      have hbody : Settles s' (processBody table query q.body)
          (Means catalog (q.scope Γ) q.body) := by
        refine settles_processBody htable hquery q.body hS' ?_ hvisit
        rcases q with ⟨recursive, withQueries, body⟩
        exact Matches.list withQueries hmatch
      refine Runs.bind hbody (fun r s'' hr => ?_) fun e he => he
      exact Runs.bind_ok rfl (Runs.pure ⟨rfl, hr.2⟩)

/-- A name that is no CTE. -/
lemma settles_processBaseTable (hquery : QuerySettles catalog query) {name : List String}
    {S : Stack} {Γ : Scope} {s : CteScope} (hS : Represents s S) (hS₀ : S.Unbound name)
    (hf : ∀ n, name = [n] → Scope.find n Γ = none)
    (hvisit : ∀ T name', Visits catalog S (.table name) T name' → Undisturbed catalog T name') :
    Settles s (processBaseTable query catalog name) (Means catalog Γ (.table name)) := by
  unfold processBaseTable
  split
  case h_1 hc => exact Runs.pure ⟨rfl, .table hf hc⟩
  case h_2 text hc =>
    refine Runs.get_bind (Runs.modify_bind ?_)
    have hview := (hvisit S name .here).view text hS₀ hc
    have htext : Settles { s with anchors := [] } (query text)
        (Means catalog (text.scope []) text.body) := by
      refine hquery hS.withoutLoops (fun n hn => .unbound (Stack.anchor_withoutLoops S) ?_ rfl) ?_
      · exact Stack.declared_withoutLoops (hview n hn)
      · exact fun T name' h => hvisit T name' (.view hS₀ hc h)
    refine Runs.bind htext (fun r s' hr => ?_) fun e he name' hname' r hr => ?_
    · obtain ⟨rfl, hr⟩ := hr
      exact Runs.modify_bind (Runs.pure ⟨rfl, .view hf hc hr⟩)
    · rcases (means_base hf).mp hr with ⟨hc', -⟩ | ⟨text', a, hc', ha, -⟩
      · cases hc.symm.trans hc'
      · cases hc.symm.trans hc'
        exact he name' hname' a ha
  case h_3 hc =>
    refine Runs.throw fun name' _ r hr => ?_
    rcases (means_base hf).mp hr with ⟨hc', -⟩ | ⟨text', a, hc', -⟩
    · cases hc.symm.trans hc'
    · cases hc.symm.trans hc'

/-- The body of a CTE, where what it reads is as it was declared. -/
lemma settles_processCteBody (htable : TableSettles catalog table)
    (hquery : QuerySettles catalog query) {n : String} {d : Declaration} {S S' : Stack}
    {Γ Γ' : Scope} {s : CteScope} (hS : Represents s (S.hideAll d)) (hanchor : S.anchor n = none)
    (hdeclared : (S.declared n).head? = some (d, S')) (hfind : Scope.find n Γ = some (.cte d, Γ'))
    (hmatch : ∀ m ∈ d.free, Matches S' Γ' m) (hdecl : d.AsDeclared S S')
    (hvisit : ∀ T name, Visits catalog S (.table [n]) T name → Undisturbed catalog T name) :
    Settles s (processCteBody table query d.entry) (Means catalog Γ (.table [n])) := by
  have hbelow : ∀ m ∈ d.free, Matches (S.hideAll d) Γ' m :=
    fun m hm => Matches.asDeclared hdecl hm (hmatch m hm)
  unfold processCteBody
  split
  case isFalse hrec =>
    have hrec : d.entry.isRecursive = false := by simpa using hrec
    have hself : d.readsItself = false := hdecl.references ▸ hrec
    refine Settles.map (hquery hS (fun m hm => hbelow m (d.mem_free hself hm)) ?_)
      fun r => means_cte hfind hself
    exact fun T name h => hvisit T name (.cte hanchor hdeclared hrec h)
  case isTrue hrec =>
    have hself : d.readsItself = true := hdecl.references ▸ hrec
    have hlist := hdecl.ownList hself
    refine Runs.get_bind ?_
    split
    case isFalse => exact Runs.throw (fun _ h => by cases h)
    case isTrue hempty =>
      have hanchors : s.anchors = [] := List.isEmpty_iff.mp hempty
      split
      case h_2 => exact Runs.throw (fun _ h => by cases h)
      case h_1 left right hbody =>
        have hbody : d.query.body = .unionAll left right := hbody
        have hreads : d.query.body.reads = left.reads ++ right.reads := by rw [hbody, Body.reads]
        have hleft : Settles s (processBody table query left)
            (Means catalog (d.query.scope Γ') left) := by
          refine settles_processBody htable hquery left hS (fun m hm => ?_) fun T name h =>
            hvisit T name (.anchorTerm hanchor hdeclared hrec hbody h)
          have hnames : m ∉ d.query.withQueries.names :=
            fun h => hlist m h (hreads ▸ List.mem_append_left _ hm)
          refine (hbelow m (Query.mem_free_of_left hbody hnames hm)).congr rfl rfl ?_
          exact WithList.find_scope _ hnames
        have hright : Settles (s.pushAnchor d.name d.withQuery.location)
            (processBody table query right)
            (Means catalog (d.query.scope (.loop d.name d.withQuery.location :: Γ')) right) := by
          refine settles_processBody htable hquery right (hS.pushAnchor _ _) (fun m hm => ?_)
            fun T name h => hvisit T name (.recursiveTerm hanchor hdeclared hrec hbody h)
          have hnames : m ∉ d.query.withQueries.names :=
            fun h => hlist m h (hreads ▸ List.mem_append_right _ hm)
          refine (Matches.enter fun hne => ?_).congr rfl rfl (WithList.find_scope _ hnames)
          refine hbelow m (Query.mem_free_of_right hbody hnames hm ?_)
          split
          · simpa using hne
          · exact fun hfalse => by cases hfalse
        have hpop : (s.pushAnchor d.name d.withQuery.location).popAnchor d.name = s := by
          rcases s with ⟨bindings, anchors⟩
          cases hanchors
          simp [CteScope.pushAnchor, CteScope.popAnchor]
        split
        case isTrue => exact Runs.throw (fun _ h => by cases h)
        case isFalse =>
          refine Runs.bind hleft (fun a s₁ ha => ?_) fun e he name hname r hr => ?_
          · obtain ⟨rfl, ha⟩ := ha
            refine Runs.modify_bind ?_
            refine Runs.bind hright (fun b s₂ hb => ?_) fun e he name hname r hr => ?_
            · obtain ⟨rfl, hb⟩ := hb
              refine Runs.modify_bind (Runs.pure ⟨hpop, ?_⟩)
              exact (means_recursive hfind hself hbody).mpr ⟨a, b, ha, hb, rfl⟩
            · obtain ⟨-, b, -, hb, -⟩ := (means_recursive hfind hself hbody).mp hr
              exact he name hname b hb
          · obtain ⟨a, -, ha, -⟩ := (means_recursive hfind hself hbody).mp hr
            exact he name hname a ha

/-- A table reference. -/
lemma settles_processTableWith (htable : TableSettles catalog table)
    (hquery : QuerySettles catalog query) :
    TableSettles catalog (processTableWith table query catalog) := by
  intro name S Γ s hS hmatch hvisit
  unfold processTableWith
  split
  case h_2 hname =>
    have hpart : ∀ n, name ≠ [n] := fun n h => hname n h
    refine Runs.bind_ok rfl (settles_processBaseTable hquery hS ?_ ?_ hvisit)
    · exact fun n h => absurd h (hpart n)
    · exact fun n h => absurd h (hpart n)
  case h_1 n =>
    have hanchors := hS.anchors n
    have hentries := hS.bindings n
    cases hmatch n rfl with
    | @loop _ _ _ location _ hanchor hfind =>
        have hfound : exec (tryProcessCteReference table query n) s =
            (.ok (some (.loopState location)), s) := by
          rw [tryProcessCteReference, exec_get_bind, hanchors.trans hanchor]
          rfl
        exact Runs.bind_ok hfound (Runs.pure ⟨rfl, .loop hfind⟩)
    | unbound hanchor hdeclared hfind =>
        have hnil : s.bindings n = [] := by rw [hentries, Stack.entries, hdeclared, List.map_nil]
        have hstate : s.pop n = s := by
          have hrestore := exec_restore n s
          rw [hnil] at hrestore
          exact congrArg Prod.snd hrestore
        have hfound : exec (tryProcessCteReference table query n) s = (.ok none, s) := by
          rw [tryProcessCteReference, exec_get_bind, hanchors.trans hanchor]
          rw [exec_bind_ok (exec_hide n s), hnil, hstate]
          rfl
        refine Runs.bind_ok hfound (settles_processBaseTable hquery hS ?_ ?_ hvisit)
        · intro m hm
          cases hm
          exact ⟨hanchor, hdeclared⟩
        · intro m hm
          cases hm
          exact hfind
    | @cte _ _ _ d S' Γ' hanchor hdeclared hfind hfree =>
        have hname : d.name = n := Stack.name_of_declared (List.mem_of_mem_head? hdeclared)
        have hhead : (s.bindings n).head? = some d.entry := by
          rw [hentries, Stack.entries, List.head?_map, hdeclared]
          rfl
        have hrestore := exec_restore n s
        rw [hhead] at hrestore
        have hbody : Settles (s.pop n) (hidingAll (processCteBody table query d.entry) d.later)
            (Means catalog Γ (.table [n])) := by
          refine Settles.hidingAll d.later (hS.pop n) fun s' hS' => ?_
          refine settles_processCteBody htable hquery ?_ hanchor hdeclared hfind hfree
            ((hvisit S [n] .here).cte n d S' rfl hanchor hdeclared) hvisit
          rw [Stack.hideAll, hname]
          exact hS'
        have hfound : Runs s (tryProcessCteReference table query n)
            (fun found s' => s' = s ∧ ∃ r, found = some r ∧ Means catalog Γ (.table [n]) r)
            fun e => ∀ name, e = .tableNotFound name → ∀ r, ¬ Means catalog Γ (.table [n]) r := by
          refine Runs.get_bind ?_
          rw [hanchors.trans hanchor]
          refine Runs.bind_ok (exec_hide n s) ?_
          rw [hhead]
          refine Runs.bind hbody (fun r s' hr => ?_) fun e he => he
          obtain ⟨rfl, hr⟩ := hr
          exact Runs.bind_ok hrestore (Runs.pure ⟨rfl, r, rfl, hr⟩)
        refine Runs.bind hfound (fun found s' hr => ?_) fun e he => he
        obtain ⟨rfl, r, rfl, hr⟩ := hr
        exact Runs.pure ⟨rfl, hr⟩

end

/-! ### Runs of the translation -/

/-- To any depth, the translation gives the lexical meaning of queries and references. -/
lemma settles_translation (maxSubqueryDepth : ℕ) : ∀ fuel depth,
    QuerySettles catalog (processQuery catalog maxSubqueryDepth fuel depth) ∧
      TableSettles catalog (processTable catalog maxSubqueryDepth fuel depth) := by
  intro fuel
  induction fuel with
  | zero =>
      intro depth
      refine ⟨fun q S Γ s _ _ _ => ?_, fun name S Γ s _ _ _ => ?_⟩
      · exact Runs.throw (fun _ h => by cases h)
      · exact Runs.throw (fun _ h => by cases h)
  | succ fuel ih =>
      intro depth
      refine ⟨fun q S Γ s hS hmatch hvisit => ?_, ?_⟩
      · rw [processQuery]
        split
        · exact settles_processQueryWith (ih (depth + 1)).2 (ih (depth + 1)).1 hS hmatch hvisit
        · exact Runs.throw (fun _ h => by cases h)
      · exact settles_processTableWith (ih depth).2 (ih depth).1

end

namespace Walk

/-- `WITH RECURSIVE r AS (TABLE t UNION ALL TABLE r) TABLE r`, without its list. -/
def body : Body := .table ["r"]

def walk : Declaration where
  withQuery := ⟨"r", 1, .mk false .nil (.unionAll (.table ["t"]) (.table ["r"]))⟩
  recursive := true
  siblings := ["r"]
  index := 0

def query : Query := .mk true (.cons "r" 1 walk.query .nil) body

def catalog : Catalog := fun name => if name = ["t"] then some .table else none

lemma asDeclared : walk.AsDeclared [.cte walk true] [] where
  below := ⟨[], rfl, by simp, by simp [Stack.anchor]⟩
  references := by decide
  ownList := by simp [walk, Declaration.query, WithList.names, Query.withQueries]

/-- A name without a CTE is undisturbed where the catalog has no view. -/
lemma undisturbed_of_declared_nil {S : Stack} {n : String} (h : S.declared n = []) :
    Undisturbed catalog S [n] where
  cte m d S' hm _ hd := by
    cases hm
    rw [h] at hd
    cases hd
  view text _ hc := by
    simp only [catalog] at hc
    split at hc <;> cases hc

lemma undisturbed : ∀ T name, Visits catalog (query.stack []) query.body T name →
    Undisturbed catalog T name := by
  have hwalk : (Stack.declared "r" (query.stack [])).head? = some (walk, []) := rfl
  have hnone : Stack.declared "t" (Stack.hideAll walk (query.stack [])) = [] := by decide
  have hnone' : Stack.declared "r"
      (.loop walk.name walk.withQuery.location :: Stack.hideAll walk (query.stack [])) = [] := by
    decide
  intro T name h
  cases h with
  | here =>
      refine ⟨fun n d S' hn _ hd => ?_, fun text hunbound => ?_⟩
      · cases hn
        cases hwalk.symm.trans hd
        exact asDeclared
      · cases (hunbound "r" rfl).2
  | cte _ hd hrec => cases hwalk.symm.trans hd; cases hrec
  | anchorTerm _ hd _ hbody h =>
      cases hwalk.symm.trans hd
      cases hbody
      cases h with
      | here => exact undisturbed_of_declared_nil hnone
      | cte _ hd => rw [hnone] at hd; cases hd
      | anchorTerm _ hd => rw [hnone] at hd; cases hd
      | recursiveTerm _ hd => rw [hnone] at hd; cases hd
      | view _ hc => cases hc
  | recursiveTerm _ hd _ hbody h =>
      cases hwalk.symm.trans hd
      cases hbody
      cases h with
      | here => exact undisturbed_of_declared_nil hnone'
      | cte _ hd => rw [hnone'] at hd; cases hd
      | anchorTerm _ hd => rw [hnone'] at hd; cases hd
      | recursiveTerm _ hd => rw [hnone'] at hd; cases hd
      | view _ hc => cases hc
  | view _ hc => cases hc

end Walk

/-! ### A body that sees a list around its reference -/

namespace Shadowed

def a : Declaration where
  withQuery := ⟨"a", 1, .mk false .nil (.table ["t"])⟩
  recursive := false
  siblings := ["a", "b"]
  index := 0

def b : Declaration where
  withQuery := ⟨"b", 2, .mk false .nil (.table ["a"])⟩
  recursive := false
  siblings := ["a", "b"]
  index := 1

/-- `WITH a AS (TABLE t), b AS (TABLE a) TABLE (WITH a AS (TABLE u) TABLE b)`. -/
def query : Query :=
  .mk false (.cons "a" 1 a.query (.cons "b" 2 b.query .nil))
    (.subquery (.mk false (.cons "a" 3 (.mk false .nil (.table ["u"])) .nil) (.table ["b"])))

def catalog : Catalog := fun name => if name = ["t"] ∨ name = ["u"] then some .table else none

end Shadowed

end Verax.Ctes
