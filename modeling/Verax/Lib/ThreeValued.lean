import Mathlib.Data.List.Basic

/-!
# Three-valued logic

Truth values that may be unknown, as SQL evaluates conditions: `none` is unknown. A condition
accepts a row only when it is known to be true.
-/

namespace Verax.Lib

/-- A truth value, `none` when unknown. -/
abbrev Truth := Option Bool

namespace Truth

/-- Known to be true. -/
def holds (t : Truth) : Bool := t = some true

/-- False as soon as one side is, true when both are. -/
def and : Truth → Truth → Truth
  | some false, _ | _, some false => some false
  | some true, some true => some true
  | _, _ => none

/-- True as soon as one side is, false when both are. -/
def or : Truth → Truth → Truth
  | some true, _ | _, some true => some true
  | some false, some false => some false
  | _, _ => none

/-- The negation, unknown of what is unknown. -/
def not : Truth → Truth
  | some b => some (!b)
  | none => none

/-- The conjunction of a list. -/
def all (l : List Truth) : Truth := l.foldr and (some true)

/-- The disjunction of a list. -/
def any (l : List Truth) : Truth := l.foldr or (some false)

@[simp] lemma all_nil : all [] = some true := rfl

@[simp] lemma any_nil : any [] = some false := rfl

@[simp] lemma all_cons (t : Truth) (l : List Truth) : all (t :: l) = t.and (all l) := rfl

@[simp] lemma any_cons (t : Truth) (l : List Truth) : any (t :: l) = t.or (any l) := rfl

/-! ### When a combination is true, and when it is false -/

@[simp] lemma and_eq_true {s t : Truth} : s.and t = some true ↔ s = some true ∧ t = some true := by
  rcases s with - | - | - <;> rcases t with - | - | - <;> simp [and]

@[simp] lemma and_eq_false {s t : Truth} :
    s.and t = some false ↔ s = some false ∨ t = some false := by
  rcases s with - | - | - <;> rcases t with - | - | - <;> simp [and]

@[simp] lemma or_eq_true {s t : Truth} : s.or t = some true ↔ s = some true ∨ t = some true := by
  rcases s with - | - | - <;> rcases t with - | - | - <;> simp [or]

@[simp] lemma or_eq_false {s t : Truth} :
    s.or t = some false ↔ s = some false ∧ t = some false := by
  rcases s with - | - | - <;> rcases t with - | - | - <;> simp [or]

@[simp] lemma not_eq_true {t : Truth} : t.not = some true ↔ t = some false := by
  rcases t with - | - | - <;> simp [not]

@[simp] lemma not_eq_false {t : Truth} : t.not = some false ↔ t = some true := by
  rcases t with - | - | - <;> simp [not]

lemma all_eq_true {l : List Truth} : all l = some true ↔ ∀ t ∈ l, t = some true := by
  induction l with
  | nil => simp
  | cons t l ih => simp [ih]

lemma all_eq_false {l : List Truth} : all l = some false ↔ some false ∈ l := by
  induction l with
  | nil => simp
  | cons t l ih => rw [all_cons, and_eq_false, ih, List.mem_cons, eq_comm]

lemma any_eq_true {l : List Truth} : any l = some true ↔ some true ∈ l := by
  induction l with
  | nil => simp
  | cons t l ih => rw [any_cons, or_eq_true, ih, List.mem_cons, eq_comm]

lemma any_eq_false {l : List Truth} : any l = some false ↔ ∀ t ∈ l, t = some false := by
  induction l with
  | nil => simp
  | cons t l ih => simp [ih]

lemma and_assoc (s t u : Truth) : (s.and t).and u = s.and (t.and u) := by
  rcases s with - | - | - <;> rcases t with - | - | - <;> rcases u with - | - | - <;> rfl

lemma or_assoc (s t u : Truth) : (s.or t).or u = s.or (t.or u) := by
  rcases s with - | - | - <;> rcases t with - | - | - <;> rcases u with - | - | - <;> rfl

@[simp] lemma and_self (t : Truth) : t.and t = t := by rcases t with - | - | - <;> rfl

@[simp] lemma and_true (t : Truth) : t.and (some true) = t := by rcases t with - | - | - <;> rfl

@[simp] lemma or_false (t : Truth) : t.or (some false) = t := by rcases t with - | - | - <;> rfl

/-- A truth value is known by when it is true and when it is false. -/
lemma ext {s t : Truth} (htrue : s = some true ↔ t = some true)
    (hfalse : s = some false ↔ t = some false) : s = t := by
  rcases s with - | - | - <;> rcases t with - | - | - <;> simp_all

/-- Equality of values that may be null: unknown if either is. -/
def eq {α : Type*} [DecidableEq α] : Option α → Option α → Truth
  | some a, some b => some (a = b)
  | _, _ => none

end Truth

end Verax.Lib
