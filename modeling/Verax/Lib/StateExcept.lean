import Mathlib.Data.List.Basic

/-!
# Stateful computations that may raise

`Checked ε σ α` is a computation that updates a state `σ` and may raise an error of type `ε`; the
state reached so far survives the error. `exec` runs it. The module gives the equations of `exec`
for the building blocks, and ways of reasoning about it:

* `Triple P m Q`: started in a state with `P`, if `m` returns, its result and state satisfy `Q`.
* `Runs s m Q E`: started in `s`, the result and state of `m` satisfy `Q`, or its error satisfies `E`.
* `Triple.forM`, `Triple.forM_index`: loops.
* `exec_forM_ok`: a loop whose invariant follows the list of processed items runs to its end.
-/

namespace Verax.Lib.StateExcept

/-- A computation over a state that may raise an error, keeping the state. -/
abbrev Checked (ε σ α : Type) := ExceptT ε (StateM σ) α

/-- The outcome and the state reached. -/
def exec {ε σ α : Type} (m : Checked ε σ α) (s : σ) : Except ε α × σ := m.run.run s

variable {ε σ α β : Type}

/-! ### Equations -/

@[simp] lemma exec_pure (a : α) (s : σ) : exec (pure a : Checked ε σ α) s = (.ok a, s) := rfl

@[simp] lemma exec_throw (e : ε) (s : σ) :
    exec (throw e : Checked ε σ α) s = (.error e, s) := rfl

@[simp] lemma exec_get (s : σ) : exec (get : Checked ε σ σ) s = (.ok s, s) := rfl

@[simp] lemma exec_modify (f : σ → σ) (s : σ) :
    exec (modify f : Checked ε σ PUnit) s = (.ok ⟨⟩, f s) := rfl

/-- Sequencing: the second computation runs from where the first one ended. -/
lemma exec_bind (m : Checked ε σ α) (f : α → Checked ε σ β) (s : σ) :
    exec (m >>= f) s =
      match exec m s with
      | (.ok a, s') => exec (f a) s'
      | (.error e, s') => (.error e, s') := by
  show (match exec m s with | (r, s') => (ExceptT.bindCont f r).run s') = _
  rcases exec m s with ⟨- | a, s'⟩ <;> rfl

/-- Sequencing after a computation that returned. -/
lemma exec_bind_ok {m : Checked ε σ α} {f : α → Checked ε σ β} {s s' : σ} {a : α}
    (h : exec m s = (.ok a, s')) : exec (m >>= f) s = exec (f a) s' := by
  rw [exec_bind, h]

@[simp] lemma exec_get_bind (f : σ → Checked ε σ β) (s : σ) :
    exec (get >>= f) s = exec (f s) s := rfl

@[simp] lemma exec_modify_bind (g : σ → σ) (f : PUnit → Checked ε σ β) (s : σ) :
    exec (modify g >>= f) s = exec (f ⟨⟩) (g s) := rfl

/-! ### Hoare triples -/

/-- If `m` starts in a state satisfying `P` and returns, its result and state satisfy `Q`. -/
def Triple (P : σ → Prop) (m : Checked ε σ α) (Q : α → σ → Prop) : Prop :=
  ∀ s, P s → ∀ a s', exec m s = (.ok a, s') → Q a s'

namespace Triple

variable {P P' : σ → Prop} {Q Q' : α → σ → Prop}

lemma pure {a : α} (h : ∀ s, P s → Q a s) : Triple P (Pure.pure a : Checked ε σ α) Q := by
  intro s hs b s' heq
  cases heq
  exact h s hs

lemma throw (e : ε) : Triple P (MonadExcept.throw e : Checked ε σ α) Q := by
  intro s _ b s' heq
  cases heq

lemma update {f : σ → σ} {R : PUnit → σ → Prop} (h : ∀ s, P s → R ⟨⟩ (f s)) :
    Triple P (modify f : Checked ε σ PUnit) R := by
  intro s hs b s' heq
  cases heq
  exact h s hs

lemma bind {m : Checked ε σ α} {f : α → Checked ε σ β} {R : β → σ → Prop} (hm : Triple P m Q)
    (hf : ∀ a, Triple (Q a) (f a) R) : Triple P (m >>= f) R := by
  intro s hs b s' heq
  rw [exec_bind] at heq
  rcases hexec : exec m s with ⟨e | a, s₁⟩
  · rw [hexec] at heq
    cases heq
  · rw [hexec] at heq
    exact hf a s₁ (hm s hs a s₁ hexec) b s' heq

/-- Reading the state: what follows may use that the state read is the one at hand. -/
lemma get_bind {f : σ → Checked ε σ β} {R : β → σ → Prop}
    (hf : ∀ s₀, P s₀ → Triple (fun s => s = s₀) (f s₀) R) : Triple P (get >>= f) R := by
  intro s hs b s' heq
  exact hf s hs s rfl b s' heq

/-- Reading the state, where what follows needs to know nothing of it. -/
lemma read {f : σ → Checked ε σ β} {R : β → σ → Prop} (hf : ∀ s₀, Triple P (f s₀) R) :
    Triple P (get >>= f) R := fun s hs => hf s s hs

lemma ite {c : Prop} [Decidable c] {m m' : Checked ε σ α} (hm : c → Triple P m Q)
    (hm' : ¬ c → Triple P m' Q) : Triple P (if c then m else m') Q := by
  split
  · exact hm ‹_›
  · exact hm' ‹_›

/-- A stronger precondition and a weaker postcondition. -/
lemma conseq {m : Checked ε σ α} (h : Triple P m Q) (hP : ∀ s, P' s → P s)
    (hQ : ∀ a s, Q a s → Q' a s) : Triple P' m Q' := by
  intro s hs a s' heq
  exact hQ a s' (h s (hP s hs) a s' heq)

/-- A loop keeps what each of its rounds keeps. -/
lemma forM {f : β → Checked ε σ PUnit} :
    ∀ {l : List β}, (∀ b ∈ l, Triple P (f b) fun _ => P) → Triple P (l.forM f) fun _ => P
  | [], _ => pure fun _ h => h
  | b :: l, h => by
    show Triple P (f b >>= fun _ => l.forM f) _
    exact bind (h b List.mem_cons_self) fun _ => forM fun c hc => h c (List.mem_cons_of_mem _ hc)

/-- A loop whose rounds advance an invariant indexed by the processed items. -/
lemma forM_index {f : β → Checked ε σ PUnit} {I : List β → σ → Prop} : ∀ {l : List β},
    (∀ pre b post, l = pre ++ b :: post → Triple (I pre) (f b) fun _ => I (pre ++ [b])) →
      Triple (I []) (l.forM f) fun _ => I l := by
  suffices h : ∀ (l post pre : List β), l = pre ++ post →
      (∀ pre b post, l = pre ++ b :: post → Triple (I pre) (f b) fun _ => I (pre ++ [b])) →
        Triple (I pre) (post.forM f) fun _ => I l from fun {l} => h l l [] rfl
  intro l post
  induction post with
  | nil =>
    intro pre hl _
    rw [hl, List.append_nil]
    exact pure fun _ h => h
  | cons b post ih =>
    intro pre hl hstep
    show Triple (I pre) (f b >>= fun _ => post.forM f) _
    exact bind (hstep pre b post hl) fun _ => ih (pre ++ [b]) (by simp [hl]) hstep

end Triple

/-! ### Runs from one state -/

/-- Started in `s`, either `m` returns and its result and state satisfy `Q`, or it raises an error
that satisfies `E`. -/
def Runs (s : σ) (m : Checked ε σ α) (Q : α → σ → Prop) (E : ε → Prop) : Prop :=
  match exec m s with
  | (.ok a, s') => Q a s'
  | (.error e, _) => E e

namespace Runs

variable {s s' : σ} {Q : α → σ → Prop} {R : β → σ → Prop} {E F : ε → Prop}

lemma pure {a : α} (h : Q a s) : Runs s (Pure.pure a : Checked ε σ α) Q E := h

lemma throw {e : ε} (h : E e) : Runs s (MonadExcept.throw e : Checked ε σ α) Q E := h

lemma bind {m : Checked ε σ α} {f : α → Checked ε σ β} (hm : Runs s m Q E)
    (hf : ∀ a s', Q a s' → Runs s' (f a) R F) (he : ∀ e, E e → F e) : Runs s (m >>= f) R F := by
  unfold Runs at *
  rw [exec_bind]
  rcases hexec : exec m s with ⟨e | a, s₁⟩
  · rw [hexec] at hm
    exact he e hm
  · rw [hexec] at hm
    exact hf a s₁ hm

/-- After a computation that returned. -/
lemma bind_ok {m : Checked ε σ α} {f : α → Checked ε σ β} {a : α} (hm : exec m s = (.ok a, s'))
    (hf : Runs s' (f a) R F) : Runs s (m >>= f) R F := by
  unfold Runs at *
  rwa [exec_bind_ok hm]

lemma get_bind {f : σ → Checked ε σ β} (hf : Runs s (f s) R F) : Runs s (get >>= f) R F :=
  bind_ok rfl hf

lemma modify_bind {g : σ → σ} {f : PUnit → Checked ε σ β} (hf : Runs (g s) (f ⟨⟩) R F) :
    Runs s (modify g >>= f) R F :=
  bind_ok rfl hf

/-- A weaker postcondition, for results and for errors. -/
lemma conseq {Q' : α → σ → Prop} {m : Checked ε σ α} (h : Runs s m Q E)
    (hQ : ∀ a s', Q a s' → Q' a s') (hE : ∀ e, E e → F e) : Runs s m Q' F := by
  unfold Runs at *
  rcases hexec : exec m s with ⟨e | a, s₁⟩
  · rw [hexec] at h
    exact hE e h
  · rw [hexec] at h
    exact hQ a s₁ h

end Runs

/-! ### Loops that run to their end -/

/-- A loop whose body succeeds and advances an invariant indexed by the processed items succeeds,
with the invariant at the whole list. -/
lemma exec_forM_ok {f : β → Checked ε σ PUnit} {l : List β} {I : List β → σ → Prop} :
    ∀ {s : σ}, I [] s →
      (∀ pre b post, l = pre ++ b :: post → ∀ s, I pre s →
        ∃ s', exec (f b) s = (.ok ⟨⟩, s') ∧ I (pre ++ [b]) s') →
      ∃ s', exec (l.forM f) s = (.ok ⟨⟩, s') ∧ I l s' := by
  suffices h : ∀ (post pre : List β), l = pre ++ post → ∀ s, I pre s →
      (∀ pre b post, l = pre ++ b :: post → ∀ s, I pre s →
        ∃ s', exec (f b) s = (.ok ⟨⟩, s') ∧ I (pre ++ [b]) s') →
      ∃ s', exec (post.forM f) s = (.ok ⟨⟩, s') ∧ I l s' from
    fun {s} h0 hstep => h l [] rfl s h0 hstep
  intro post
  induction post with
  | nil =>
    intro pre hl s hs _
    refine ⟨s, rfl, ?_⟩
    rwa [hl, List.append_nil]
  | cons b post ih =>
    intro pre hl s hs hstep
    obtain ⟨s₁, h₁, hI₁⟩ := hstep pre b post hl s hs
    obtain ⟨s₂, h₂, hI₂⟩ := ih (pre ++ [b]) (by simp [hl]) s₁ hI₁ hstep
    refine ⟨s₂, ?_, hI₂⟩
    show exec (f b >>= fun _ => post.forM f) s = _
    rw [exec_bind_ok h₁, h₂]

end Verax.Lib.StateExcept
