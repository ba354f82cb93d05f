import Verax.Lib.FreshNames
import Verax.Names.NameMappings

/-!
# Allocating names

A plan builder names the columns it creates after a hint. A name that is taken gets a number.

* `NameAllocator.newName`: a name for a hint.
* `newName_spec`: it is new and not empty.
-/

namespace Verax.Projections

open Names (NameMappings QualifiedName ColumnId NameError)
open Lib.FreshNames

/-- Failed checks and user errors of the plan builder. -/
inductive BuilderError where
  | names (error : NameError)
  | emptyHint
  | emptyAlias
  | unresolved (message : String)

/-- The names a builder gave out. The counter does not reach the 2^31 of its type.
Source: `NameAllocator.h` `NameAllocator`. -/
structure NameAllocator where
  names : List String := []
  nextId : ℕ := 0

/-- Source: `NameAllocator.cpp` `isAllDigits`. -/
def isAllDigits (str : List Char) : Bool := str.all Char.isDigit

/-- A hint without its numeric suffix.
Source: `NameAllocator.cpp` `newName`, `prefix.rfind`. -/
def stripSuffix (hint : String) : String :=
  match hint.toList.reverse.span (fun c => c ≠ '_') with
  | (_, []) => hint
  | (suffix, _ :: kept) =>
      if suffix ≠ [] ∧ isAllDigits suffix then String.ofList kept.reverse else hint

/-- What the names for a hint start with.
Source: `NameAllocator.cpp` `newName`, up to the loop. -/
def hintPrefix (hint : String) : String :=
  if stripSuffix hint = "" then "expr" else stripSuffix hint

/-- A prefix with a number. -/
def numbered (namePrefix : String) (id : ℕ) : String := namePrefix ++ "_" ++ toString id

namespace NameAllocator

/-- Source: `NameAllocator.cpp` `newName`. One of the first names tried is new, see
`newName_spec`. -/
def newName (allocator : NameAllocator) (hint : String) :
    Except BuilderError (ColumnId × NameAllocator) :=
  if hint = "" then .error .emptyHint
  else
    let found := search allocator.names (numbered (hintPrefix hint))
      (allocator.names.length + 1) (hintPrefix hint) allocator.nextId
    .ok (found.1, { names := found.1 :: allocator.names, nextId := found.2 })

end NameAllocator

lemma numbered_injective (namePrefix : String) : Function.Injective (numbered namePrefix) := by
  intro m n h
  have hdigits : Nat.toDigits 10 m = Nat.toDigits 10 n :=
    String.ofList_injective ((String.append_right_inj _).mp h)
  rw [← Nat.ofDigitChars_ten_toDigits (n := m), hdigits, Nat.ofDigitChars_ten_toDigits]

lemma numbered_ne (namePrefix : String) (id : ℕ) : numbered namePrefix id ≠ namePrefix := by
  intro h
  have hlength := congrArg String.length h
  simp only [numbered, String.length_append] at hlength
  have hbar : "_".length = 1 := rfl
  omega

lemma hintPrefix_ne_empty (hint : String) : hintPrefix hint ≠ "" := by
  unfold hintPrefix
  split
  · decide
  · assumption

lemma numbered_ne_empty (namePrefix : String) (id : ℕ) : numbered namePrefix id ≠ "" := by
  intro h
  have hlength := congrArg String.length h
  simp only [numbered, String.length_append] at hlength
  have hbar : "_".length = 1 := rfl
  have hempty : "".length = 0 := rfl
  omega

/-- A numbered name is tried only after the others, so the result is one of these. -/
lemma search_ne_empty {taken : List String} {namePrefix : String} :
    ∀ {rounds : ℕ} {candidate : String} {next : ℕ}, candidate ≠ "" →
      (search taken (numbered namePrefix) rounds candidate next).1 ≠ ""
  | 0, _, _, h => h
  | rounds + 1, _, next, h => by
      rw [search]
      split
      · exact search_ne_empty (numbered_ne_empty namePrefix next)
      · exact h

/-- A hint that is not empty gives a new name. -/
lemma NameAllocator.newName_spec (allocator : NameAllocator) {hint : String} (h : hint ≠ "") :
    ∃ name nextId, allocator.newName hint = .ok (name, ⟨name :: allocator.names, nextId⟩) ∧
      name ∉ allocator.names ∧ name ≠ "" := by
  rw [newName, if_neg h]
  exact ⟨_, _, rfl, search_notMem (numbered_injective _) (Nat.lt_succ_self _) (numbered_ne _) _,
    search_ne_empty (hintPrefix_ne_empty hint)⟩

end Verax.Projections
