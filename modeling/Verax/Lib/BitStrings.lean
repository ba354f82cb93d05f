import Mathlib.Data.List.Induction
import Mathlib.Data.Nat.Bitwise

/-!
# Numbers as strings of bits

A number written in binary, the highest digit first, and the word that has it.

* `testBit_ofBits`: the digits of a number are its bits.
* `toNat_clearBits`: a word of ones whose bits are cleared one by one.
-/

namespace Verax.Lib.BitStrings

/-- The number with the given binary digits, the highest first. -/
def ofBits (bits : List Bool) : ℕ := bits.foldl (fun n b => 2 * n + b.toNat) 0

@[simp] lemma ofBits_nil : ofBits [] = 0 := rfl

@[simp] lemma ofBits_concat (bits : List Bool) (b : Bool) :
    ofBits (bits ++ [b]) = 2 * ofBits bits + b.toNat := by
  rw [ofBits, List.foldl_append]
  rfl

lemma ofBits_lt (bits : List Bool) : ofBits bits < 2 ^ bits.length := by
  induction bits using List.reverseRecOn with
  | nil => simp
  | append_singleton bits b ih =>
    have hb := b.toNat_lt
    rw [ofBits_concat, List.length_append, List.length_singleton, Nat.pow_succ]
    omega

lemma ofBits_eq_zero {bits : List Bool} (h : ∀ b ∈ bits, b = false) : ofBits bits = 0 := by
  induction bits using List.reverseRecOn with
  | nil => rfl
  | append_singleton bits b ih =>
    rw [ofBits_concat, ih fun b' hb' => h b' (List.mem_append_left _ hb'), h b (by simp)]
    rfl

/-- The digits of a number are its bits. -/
lemma testBit_ofBits (bits : List Bool) (j : ℕ) :
    (ofBits bits).testBit j = (bits.reverse[j]?).getD false := by
  induction bits using List.reverseRecOn generalizing j with
  | nil => simp
  | append_singleton bits b ih =>
    rw [ofBits_concat, List.reverse_append, List.reverse_singleton, List.singleton_append]
    cases j with
    | zero => cases b <;> simp [Nat.testBit_zero]
    | succ j =>
      rw [Nat.testBit_succ, List.getElem?_cons_succ, ← ih]
      congr 1
      have hb := b.toNat_lt
      omega

section word

variable {α : Type} {w : ℕ} (p : α → Prop) [DecidablePred p]

/-- A word of ones, one for each item, the first item's the highest; cleared where the item has a
property. -/
def clearBits (w : ℕ) (items : List α) : BitVec w :=
  items.zipIdx.foldl (fun word (item, i) =>
    if p item then word &&& ~~~((1 : BitVec w) <<< (items.length - 1 - i)) else word)
    (((1 : BitVec w) <<< items.length) - 1)

/-- A word with one bit. -/
lemma getLsbD_single {position j : ℕ} (hj : j < w) :
    ((1 : BitVec w) <<< position).getLsbD j = decide (position = j) := by
  have hone : (1 : BitVec w) = 1#w := rfl
  rw [hone, BitVec.getLsbD_shiftLeft, BitVec.getLsbD_one, Bool.eq_iff_iff]
  simp only [Bool.and_eq_true, Bool.not_eq_true', decide_eq_true_iff, decide_eq_false_iff_not]
  omega

/-- Ones in the lowest places. -/
lemma getLsbD_ones {n j : ℕ} (hn : n ≤ w) (hj : j < w) :
    (((1 : BitVec w) <<< n) - 1).getLsbD j = decide (j < n) := by
  have hpos : 0 < 2 ^ n := Nat.two_pow_pos n
  have hle : 2 ^ n ≤ 2 ^ w := Nat.pow_le_pow_right (by omega) hn
  have hone : (1 : BitVec w).toNat = 1 := by
    change (1#w).toNat = 1
    rw [BitVec.toNat_ofNat, Nat.mod_eq_of_lt (Nat.one_lt_two_pow (by omega))]
  have hvalue : (((1 : BitVec w) <<< n) - 1).toNat = 2 ^ n - 1 := by
    rw [BitVec.toNat_sub, BitVec.toNat_shiftLeft, hone, Nat.one_shiftLeft]
    rcases hle.lt_or_eq with hlt | heq
    · rw [Nat.mod_eq_of_lt hlt, show 2 ^ w - 1 + 2 ^ n = 2 ^ n - 1 + 2 ^ w by omega,
        Nat.add_mod_right, Nat.mod_eq_of_lt (by omega)]
    · rw [heq, Nat.mod_self, Nat.add_zero, Nat.mod_eq_of_lt (by omega)]
  rw [← BitVec.testBit_toNat, hvalue, Nat.testBit_two_pow_sub_one]

/-- What clearing bits one by one leaves. -/
lemma getLsbD_foldl_clear (position : ℕ → ℕ) {j : ℕ} (hj : j < w) :
    ∀ (items : List (α × ℕ)) (word : BitVec w),
      (items.foldl (fun word (item, i) =>
        if p item then word &&& ~~~((1 : BitVec w) <<< position i) else word) word).getLsbD j =
          true ↔ word.getLsbD j = true ∧ ∀ q ∈ items, p q.1 → position q.2 ≠ j
  | [], word => by simp
  | (item, i) :: items, word => by
      rw [List.foldl_cons, getLsbD_foldl_clear position hj items, List.forall_mem_cons]
      by_cases hp : p item
      · simp only [hp, if_true, BitVec.getLsbD_and, BitVec.getLsbD_not, getLsbD_single hj, hj,
          decide_true, Bool.true_and, Bool.and_eq_true, Bool.not_eq_true', decide_eq_false_iff_not,
          forall_true_left, and_assoc, ne_eq]
      · simp [hp]

/-- The word has the digits of the items without the property. -/
theorem toNat_clearBits {items : List α} (h : items.length ≤ w) :
    (clearBits p w items).toNat = ofBits (items.map fun item => !decide (p item)) := by
  refine Nat.eq_of_testBit_eq fun j => ?_
  rw [testBit_ofBits, BitVec.testBit_toNat, Bool.eq_iff_iff]
  by_cases hj : j < items.length
  · have hitem : items.length - 1 - j < items.length := by omega
    have hdigit : (items.map fun item => !decide (p item)).reverse[j]? =
        some (!decide (p items[items.length - 1 - j])) := by
      rw [List.getElem?_reverse (by simpa using hj), List.length_map, List.getElem?_map,
        List.getElem?_eq_getElem hitem, Option.map_some]
    rw [clearBits, getLsbD_foldl_clear p _ (hj.trans_le h), getLsbD_ones h (hj.trans_le h), hdigit]
    simp only [hj, decide_true, true_and, Option.getD_some, Bool.not_eq_true',
      decide_eq_false_iff_not]
    constructor
    · intro hclear hp
      exact hclear (_, items.length - 1 - j)
        (List.mk_mem_zipIdx_iff_getElem?.mpr (List.getElem?_eq_getElem hitem)) hp
        (by dsimp only; omega)
    · rintro hp ⟨item, i⟩ hmem hitem' heq
      obtain ⟨hi, rfl⟩ := List.getElem?_eq_some_iff.mp (List.mk_mem_zipIdx_iff_getElem?.mp hmem)
      have hsame : items.length - 1 - j = i := by
        dsimp only at heq
        omega
      simp only [hsame] at hp
      exact hp hitem'
  · have hdigit : (items.map fun item => !decide (p item)).reverse[j]? = none :=
      List.getElem?_eq_none (by simpa using hj)
    rw [hdigit]
    refine iff_of_false (fun hbit => ?_) (by simp)
    by_cases hw : j < w
    · have hone := ((getLsbD_foldl_clear p _ hw _ _).mp hbit).1
      rw [getLsbD_ones h hw, decide_eq_true_iff] at hone
      exact hj hone
    · rw [BitVec.getLsbD_of_ge _ _ (not_lt.mp hw)] at hbit
      cases hbit

end word

end Verax.Lib.BitStrings
