import Verax.Plan.JoinType
import Verax.Lib.BagJoin

/-!
# The rows of a join

`JoinSpec` holds the parameters of a join node, and `JoinSpec.outcomes` the bags of rows it may emit
for two bags of input rows. Every join type emits one bag, except the counting ones, which leave open
which rows of a key they emit.

* `exists_makes`: what a row that a join emits is made of.
* `Reads.outcomes`: a join depends on what it reads of its rows.
* `outcomes_of_sameLeft`, `outcomes_of_sameRight`: semi and anti joins depend on the partners of the
  rows of one side.
-/

namespace Verax

open Verax.Lib Verax.Lib.BagJoin

/-- The parameters of a join, over rows `ρ` and key values `κ`. `output` assembles an output row from
a left row, a right row and a mark, as far as the join type has them.
Source: `Node.h` `Join::Key`. -/
structure JoinSpec (ρ κ : Type) where
  joinType : JoinType
  leftKeys : List (ρ → Option κ)
  rightKeys : List (ρ → Option κ)
  filter : List (ρ → ρ → Truth)
  nullAware : Bool
  nullAsValue : Bool
  output : Option ρ → Option ρ → Truth → ρ

namespace JoinSpec

variable {ρ κ : Type} [DecidableEq κ] (J : JoinSpec ρ κ)

/-- Two key values are equal; with `nullAsValue`, null equals null. -/
def keyEqual (x y : Option κ) : Truth := if J.nullAsValue then some (x = y) else Truth.eq x y

/-- All key pairs are equal. -/
def keysEqual (l r : ρ) : Truth :=
  Truth.all (List.zipWith (fun x y => J.keyEqual (x l) (y r)) J.leftKeys J.rightKeys)

/-- The filter accepts the pair. -/
def passesFilter (l r : ρ) : Bool := (Truth.all (J.filter.map fun f => f l r)).holds

/-- The pair matches. -/
def on (l r : ρ) : Bool := (J.keysEqual l r).holds && J.passesFilter l r

/-- Whether a row is among those of `B`: three-valued for a null-aware join. -/
def mark (on : ρ → ρ → Bool) (keys : ρ → ρ → Truth) (filter : ρ → ρ → Bool) (B : Multiset ρ)
    (a : ρ) : Truth :=
  if J.nullAware then isAmong keys filter B a else some (hasPartner on B a)

/-- The mark of a left row. -/
def leftMark (B : Multiset ρ) (a : ρ) : Truth := J.mark J.on J.keysEqual J.passesFilter B a

/-- The mark of a right row. -/
def rightMark (A : Multiset ρ) (b : ρ) : Truth :=
  J.mark (flip J.on) (flip J.keysEqual) (flip J.passesFilter) A b

/-- The key of a row, `none` if it can match no row. -/
def countingKey (keys : List (ρ → Option κ)) (a : ρ) : Option (List (Option κ)) :=
  if J.nullAsValue || keys.all fun x => (x a).isSome then some (keys.map (· a)) else none

/-- How many rows of a key are paired with a row of the other side. -/
def pairedCount (key : Option (List (Option κ))) (n m : ℕ) : ℕ := if key.isSome then min n m else 0

/-- The pairs that match, as output rows. -/
def pairs (A B : Multiset ρ) : Multiset ρ :=
  (inner J.on A B).map fun p => J.output (some p.1) (some p.2) none

/-- Left rows without a partner, padded. -/
def leftPads (A B : Multiset ρ) : Multiset ρ :=
  (unmatched J.on A B).map fun a => J.output (some a) none none

/-- Right rows without a partner, padded. -/
def rightPads (A B : Multiset ρ) : Multiset ρ :=
  (unmatched (flip J.on) B A).map fun b => J.output none (some b) none

/-- The bags of rows the join may emit. Source: velox `JoinType`. -/
def outcomes (A B : Multiset ρ) : Set (Multiset ρ) :=
  match J.joinType with
  | .inner => {J.pairs A B}
  | .left => {J.pairs A B + J.leftPads A B}
  | .right => {J.pairs A B + J.rightPads A B}
  | .full => {J.pairs A B + J.leftPads A B + J.rightPads A B}
  | .leftSemiFilter => {(matched J.on A B).map fun a => J.output (some a) none none}
  | .rightSemiFilter => {(matched (flip J.on) B A).map fun b => J.output none (some b) none}
  | .leftSemiProject => {A.map fun a => J.output (some a) none (J.leftMark B a)}
  | .rightSemiProject => {B.map fun b => J.output none (some b) (J.rightMark A b)}
  | .anti => {(A.filter (J.leftMark B · = some false)).map fun a => J.output (some a) none none}
  | .rightAnti => {(B.filter (J.rightMark A · = some false)).map fun b => J.output none (some b) none}
  | .countingLeftSemiFilter => (Multiset.map fun a => J.output (some a) none none) ''
      counted (J.countingKey J.leftKeys) (J.countingKey J.rightKeys) pairedCount A B
  | .countingAnti => (Multiset.map fun a => J.output (some a) none none) ''
      counted (J.countingKey J.leftKeys) (J.countingKey J.rightKeys)
        (fun key n m => n - pairedCount key n m) A B

/-- What an output row is made of: a row of a side, or of both; of a side that the join preserves at
least, and of rows that match if the join is an inner one. -/
structure Makes (A B : Multiset ρ) (l r : Option ρ) : Prop where
  left : ∀ a, l = some a → a ∈ A
  right : ∀ b, r = some b → b ∈ B
  preservesLeft : J.joinType.preservedSides.left = true → l.isSome = true
  preservesRight : J.joinType.preservedSides.right = true → r.isSome = true
  inner : J.joinType = .inner → ∃ a b, l = some a ∧ r = some b ∧ J.on a b = true

variable {J} in
/-- Every row that a join emits is made of rows of its inputs. -/
lemma exists_makes {A B O : Multiset ρ} {x : ρ} (hO : O ∈ J.outcomes A B) (hx : x ∈ O) :
    ∃ l r m, J.Makes A B l r ∧ x = J.output l r m := by
  have hleft : ∀ a ∈ A, J.joinType.preservedSides.right = false →
      J.Makes A B (some a) none := by
    intro a ha hside
    refine ⟨?_, nofun, fun _ => rfl, fun h => ?_, fun h => ?_⟩
    · rintro _ ⟨⟩
      exact ha
    · rw [hside] at h
      cases h
    · rw [h] at hside
      cases hside
  have hright : ∀ b ∈ B, J.joinType.preservedSides.left = false →
      J.Makes A B none (some b) := by
    intro b hb hside
    refine ⟨nofun, ?_, fun h => ?_, fun _ => rfl, fun h => ?_⟩
    · rintro _ ⟨⟩
      exact hb
    · rw [hside] at h
      cases h
    · rw [h] at hside
      cases hside
  have hpairs : x ∈ J.pairs A B → ∃ l r m, J.Makes A B l r ∧ x = J.output l r m := by
    intro hx
    obtain ⟨⟨a, b⟩, hp, rfl⟩ := Multiset.mem_map.mp hx
    obtain ⟨ha, hb, hon⟩ := mem_inner.mp hp
    refine ⟨some a, some b, none,
      ⟨?_, ?_, fun _ => rfl, fun _ => rfl, fun _ => ⟨a, b, rfl, rfl, hon⟩⟩, rfl⟩
    · rintro _ ⟨⟩
      exact ha
    · rintro _ ⟨⟩
      exact hb
  have hleftPads : J.joinType.preservedSides.right = false → x ∈ J.leftPads A B →
      ∃ l r m, J.Makes A B l r ∧ x = J.output l r m := by
    intro hside hx
    obtain ⟨a, ha, rfl⟩ := Multiset.mem_map.mp hx
    exact ⟨_, _, _, hleft a (Multiset.mem_of_mem_filter ha) hside, rfl⟩
  have hrightPads : J.joinType.preservedSides.left = false → x ∈ J.rightPads A B →
      ∃ l r m, J.Makes A B l r ∧ x = J.output l r m := by
    intro hside hx
    obtain ⟨b, hb, rfl⟩ := Multiset.mem_map.mp hx
    exact ⟨_, _, _, hright b (Multiset.mem_of_mem_filter hb) hside, rfl⟩
  have hcounted : ∀ keep, J.joinType.preservedSides.right = false →
      O ∈ (Multiset.map fun a => J.output (some a) none none) ''
        counted (J.countingKey J.leftKeys) (J.countingKey J.rightKeys) keep A B →
      ∃ l r m, J.Makes A B l r ∧ x = J.output l r m := by
    rintro keep hside ⟨S, ⟨hle, -⟩, rfl⟩
    obtain ⟨a, ha, rfl⟩ := Multiset.mem_map.mp hx
    exact ⟨_, _, _, hleft a (Multiset.mem_of_le hle ha) hside, rfl⟩
  unfold outcomes at hO
  cases htype : J.joinType with
  | inner =>
      rw [htype] at hO
      cases hO
      exact hpairs hx
  | left =>
      rw [htype] at hO
      cases hO
      exact (Multiset.mem_add.mp hx).elim hpairs (hleftPads (by rw [htype]; rfl))
  | right =>
      rw [htype] at hO
      cases hO
      exact (Multiset.mem_add.mp hx).elim hpairs (hrightPads (by rw [htype]; rfl))
  | full =>
      rw [htype] at hO
      cases hO
      rcases Multiset.mem_add.mp hx with hx | hx
      · exact (Multiset.mem_add.mp hx).elim hpairs (hleftPads (by rw [htype]; rfl))
      · exact hrightPads (by rw [htype]; rfl) hx
  | leftSemiFilter | anti =>
      rw [htype] at hO
      cases hO
      obtain ⟨a, ha, rfl⟩ := Multiset.mem_map.mp hx
      exact ⟨_, _, _, hleft a (Multiset.mem_of_mem_filter ha) (by rw [htype]; rfl), rfl⟩
  | rightSemiFilter | rightAnti =>
      rw [htype] at hO
      cases hO
      obtain ⟨b, hb, rfl⟩ := Multiset.mem_map.mp hx
      exact ⟨_, _, _, hright b (Multiset.mem_of_mem_filter hb) (by rw [htype]; rfl), rfl⟩
  | leftSemiProject =>
      rw [htype] at hO
      cases hO
      obtain ⟨a, ha, rfl⟩ := Multiset.mem_map.mp hx
      exact ⟨_, _, _, hleft a ha (by rw [htype]; rfl), rfl⟩
  | rightSemiProject =>
      rw [htype] at hO
      cases hO
      obtain ⟨b, hb, rfl⟩ := Multiset.mem_map.mp hx
      exact ⟨_, _, _, hright b hb (by rw [htype]; rfl), rfl⟩
  | countingLeftSemiFilter | countingAnti =>
      rw [htype] at hO
      exact hcounted _ (by rw [htype]; rfl) hO

variable {J} in
/-- Rows that match have no NULL key, unless NULL equals NULL. -/
lemma isSome_of_on (hnull : J.nullAsValue = false) {l r : ρ} (hon : J.on l r = true) :
    ∀ p ∈ J.leftKeys.zip J.rightKeys, (p.1 l).isSome = true ∧ (p.2 r).isSome = true := by
  intro p hp
  have hkeys : J.keysEqual l r = some true := of_decide_eq_true (Bool.and_eq_true_iff.mp hon).1
  have hmem : J.keyEqual (p.1 l) (p.2 r) ∈
      List.zipWith (fun x y => J.keyEqual (x l) (y r)) J.leftKeys J.rightKeys := by
    rw [← List.map_uncurry_zip_eq_zipWith]
    exact List.mem_map_of_mem hp
  have hequal := Truth.all_eq_true.mp hkeys _ hmem
  rw [keyEqual, hnull, if_neg Bool.false_ne_true] at hequal
  cases hleft : p.1 l with
  | none =>
      rw [hleft] at hequal
      cases hequal
  | some v =>
      cases hright : p.2 r with
      | none =>
          rw [hleft, hright] at hequal
          cases hequal
      | some w => exact ⟨rfl, rfl⟩

/-- A join is known by what matches, its marks, its output rows, and what it counts. -/
lemma outcomes_congr {J J' : JoinSpec ρ κ} {A B : Multiset ρ} (htype : J.joinType = J'.joinType)
    (hon : J.on = J'.on) (hleft : J.leftMark = J'.leftMark) (hright : J.rightMark = J'.rightMark)
    (houtput : J.output = J'.output)
    (hcounted : ∀ keep : Bool → ℕ → ℕ → ℕ, (∀ b, keep b 0 0 = 0) →
      counted (J.countingKey J.leftKeys) (J.countingKey J.rightKeys) (fun k => keep k.isSome) A B =
        counted (J'.countingKey J'.leftKeys) (J'.countingKey J'.rightKeys) (fun k => keep k.isSome)
          A B) :
    J.outcomes A B = J'.outcomes A B := by
  have hpaired := hcounted (fun b n m => if b then min n m else 0) (by intro b; cases b <;> rfl)
  have hunpaired := hcounted (fun b n m => n - if b then min n m else 0)
    (by intro b; cases b <;> rfl)
  unfold outcomes pairs leftPads rightPads
  rw [htype, hon, hleft, hright, houtput]
  cases J'.joinType with
  | countingLeftSemiFilter => exact congrArg (Set.image _) hpaired
  | countingAnti => exact congrArg (Set.image _) hunpaired
  | _ => rfl

/-! ### Rows that are replaced -/

section Map

variable {J} {f g : ρ → ρ}

/-- What a join reads of its rows is the same of others. -/
structure Reads (J : JoinSpec ρ κ) (f g : ρ → ρ) : Prop where
  leftKeys : ∀ key ∈ J.leftKeys, ∀ a, key (f a) = key a
  rightKeys : ∀ key ∈ J.rightKeys, ∀ b, key (g b) = key b
  filter : ∀ p ∈ J.filter, ∀ a b, p (f a) (g b) = p a b
  output : ∀ a b m, J.output (a.map f) (b.map g) m = J.output a b m

lemma keysEqual_eq (l r : ρ) : J.keysEqual l r =
    Truth.all (List.zipWith J.keyEqual (J.leftKeys.map (· l)) (J.rightKeys.map (· r))) := by
  rw [keysEqual, List.zipWith_map]

lemma Reads.keysEqual (h : J.Reads f g) (a b : ρ) : J.keysEqual (f a) (g b) = J.keysEqual a b := by
  rw [keysEqual_eq, keysEqual_eq, List.map_congr_left fun key hkey => h.leftKeys key hkey a,
    List.map_congr_left fun key hkey => h.rightKeys key hkey b]

omit [DecidableEq κ] in
lemma Reads.passesFilter (h : J.Reads f g) (a b : ρ) :
    J.passesFilter (f a) (g b) = J.passesFilter a b := by
  rw [JoinSpec.passesFilter, JoinSpec.passesFilter,
    List.map_congr_left fun p hp => h.filter p hp a b]

lemma Reads.on (h : J.Reads f g) (a b : ρ) : J.on (f a) (g b) = J.on a b := by
  rw [JoinSpec.on, JoinSpec.on, h.keysEqual, h.passesFilter]

lemma Reads.leftMark (h : J.Reads f g) (B : Multiset ρ) (a : ρ) :
    J.leftMark (B.map g) (f a) = J.leftMark B a := by
  unfold JoinSpec.leftMark JoinSpec.mark
  rw [isAmong_map h.keysEqual h.passesFilter, hasPartner_map h.on]

lemma Reads.rightMark (h : J.Reads f g) (A : Multiset ρ) (b : ρ) :
    J.rightMark (A.map f) (g b) = J.rightMark A b := by
  have hkeys : ∀ b a, flip J.keysEqual (g b) (f a) = flip J.keysEqual b a := fun b a =>
    h.keysEqual a b
  have hfilter : ∀ b a, flip J.passesFilter (g b) (f a) = flip J.passesFilter b a := fun b a =>
    h.passesFilter a b
  have hon : ∀ b a, flip J.on (g b) (f a) = flip J.on b a := fun b a => h.on a b
  unfold JoinSpec.rightMark JoinSpec.mark
  rw [isAmong_map hkeys hfilter, hasPartner_map hon]

omit [DecidableEq κ] in
lemma countingKey_congr {keys : List (ρ → Option κ)} (h : ∀ key ∈ keys, ∀ a, key (f a) = key a)
    (a : ρ) : J.countingKey keys (f a) = J.countingKey keys a := by
  have hall : (keys.all fun x => (x (f a)).isSome) = keys.all fun x => (x a).isSome := by
    rw [Bool.eq_iff_iff, List.all_eq_true, List.all_eq_true]
    exact forall₂_congr fun key hkey => by rw [h key hkey]
  rw [countingKey, countingKey, hall, List.map_congr_left fun key hkey => h key hkey a]

/-- A join gives the same over rows that it reads the same of. -/
lemma Reads.outcomes (h : J.Reads f g) (A B : Multiset ρ) :
    J.outcomes (A.map f) (B.map g) = J.outcomes A B := by
  have hpairs : J.pairs (A.map f) (B.map g) = J.pairs A B := by
    rw [pairs, pairs, inner_map h.on, Multiset.map_map]
    exact Multiset.map_congr rfl fun p _ => h.output (some p.1) (some p.2) none
  have hleft : ∀ (p q : ρ → Prop) [DecidablePred p] [DecidablePred q], (∀ a, p (f a) ↔ q a) →
      ((A.map f).filter p).map (fun a => J.output (some a) none none) =
        (A.filter q).map fun a => J.output (some a) none none := by
    intro p q _ _ hpq
    have hfilter : A.filter (p ∘ f) = A.filter q := Multiset.filter_congr fun a _ => hpq a
    rw [Multiset.filter_map, Multiset.map_map, hfilter]
    exact Multiset.map_congr rfl fun a _ => h.output (some a) none none
  have hright : ∀ (p q : ρ → Prop) [DecidablePred p] [DecidablePred q], (∀ b, p (g b) ↔ q b) →
      ((B.map g).filter p).map (fun b => J.output none (some b) none) =
        (B.filter q).map fun b => J.output none (some b) none := by
    intro p q _ _ hpq
    have hfilter : B.filter (p ∘ g) = B.filter q := Multiset.filter_congr fun b _ => hpq b
    rw [Multiset.filter_map, Multiset.map_map, hfilter]
    exact Multiset.map_congr rfl fun b _ => h.output none (some b) none
  have hpartner := fun a => hasPartner_map h.on B a
  have hflip : ∀ b a, flip J.on (g b) (f a) = flip J.on b a := fun b a => h.on a b
  have hpartner' := fun b => hasPartner_map hflip A b
  have hcounted : ∀ keep : Option (List (Option κ)) → ℕ → ℕ → ℕ,
      (Multiset.map fun a => J.output (some a) none none) '' counted (J.countingKey J.leftKeys)
        (J.countingKey J.rightKeys) keep (A.map f) (B.map g) =
      (Multiset.map fun a => J.output (some a) none none) '' counted (J.countingKey J.leftKeys)
        (J.countingKey J.rightKeys) keep A B := by
    intro keep
    rw [counted_map (countingKey_congr h.leftKeys) (countingKey_congr h.rightKeys),
      Set.image_image]
    refine Set.image_congr fun S _ => ?_
    rw [Multiset.map_map]
    exact Multiset.map_congr rfl fun a _ => h.output (some a) none none
  have hpads : J.leftPads (A.map f) (B.map g) = J.leftPads A B :=
    hleft _ _ fun a => by rw [hpartner a]
  have hpads' : J.rightPads (A.map f) (B.map g) = J.rightPads A B :=
    hright _ _ fun b => by rw [hpartner' b]
  have hmatched : (matched J.on (A.map f) (B.map g)).map (fun a => J.output (some a) none none) =
      (matched J.on A B).map fun a => J.output (some a) none none :=
    hleft _ _ fun a => by rw [hpartner a]
  have hmatched' : (matched (flip J.on) (B.map g) (A.map f)).map
      (fun b => J.output none (some b) none) =
      (matched (flip J.on) B A).map fun b => J.output none (some b) none :=
    hright _ _ fun b => by rw [hpartner' b]
  have hmarked : (A.map f).map (fun a => J.output (some a) none (J.leftMark (B.map g) a)) =
      A.map fun a => J.output (some a) none (J.leftMark B a) := by
    rw [Multiset.map_map]
    exact Multiset.map_congr rfl fun a _ => by
      rw [Function.comp, h.leftMark]
      exact h.output (some a) none _
  have hmarked' : (B.map g).map (fun b => J.output none (some b) (J.rightMark (A.map f) b)) =
      B.map fun b => J.output none (some b) (J.rightMark A b) := by
    rw [Multiset.map_map]
    exact Multiset.map_congr rfl fun b _ => by
      rw [Function.comp, h.rightMark]
      exact h.output none (some b) _
  have hanti : ((A.map f).filter (J.leftMark (B.map g) · = some false)).map
      (fun a => J.output (some a) none none) =
      (A.filter (J.leftMark B · = some false)).map fun a => J.output (some a) none none :=
    hleft _ _ fun a => by rw [h.leftMark]
  have hanti' : ((B.map g).filter (J.rightMark (A.map f) · = some false)).map
      (fun b => J.output none (some b) none) =
      (B.filter (J.rightMark A · = some false)).map fun b => J.output none (some b) none :=
    hright _ _ fun b => by rw [h.rightMark]
  unfold JoinSpec.outcomes
  rw [hpairs, hpads, hpads', hmatched, hmatched', hmarked, hmarked', hanti, hanti', hcounted,
    hcounted]

end Map

/-! ### Rows of one side that only tell whether a row has a partner -/

section Membership

variable {J J' : JoinSpec ρ κ} {A A' B B' : Multiset ρ}

/-- Left rows that go together: they have the same partners, and make the same rows. -/
structure SameLeft (J J' : JoinSpec ρ κ) (B B' : Multiset ρ) (a a' : ρ) : Prop where
  partners : SamePartners J.keysEqual J'.keysEqual J.passesFilter J'.passesFilter B B' a a'
  output : ∀ m, J.output (some a) none m = J'.output (some a') none m

/-- Right rows that go together. -/
structure SameRight (J J' : JoinSpec ρ κ) (A A' : Multiset ρ) (b b' : ρ) : Prop where
  partners : SamePartners (flip J.keysEqual) (flip J'.keysEqual) (flip J.passesFilter)
    (flip J'.passesFilter) A A' b b'
  output : ∀ m, J.output none (some b) m = J'.output none (some b') m

/-- What a semi or anti join makes of its left rows. -/
lemma outcomes_of_sameLeft (htype : J.joinType = J'.joinType) (haware : J.nullAware = J'.nullAware)
    (hjoin : J.joinType = .leftSemiFilter ∨ J.joinType = .leftSemiProject ∨ J.joinType = .anti)
    (h : Multiset.Rel (SameLeft J J' B B') A A') : J.outcomes A B = J'.outcomes A' B' := by
  have hon : ∀ a a', SameLeft J J' B B' a a' → hasPartner J.on B a = hasPartner J'.on B' a' :=
    fun a a' hsame => hsame.partners.hasPartner fun k f => k.holds && f
  have hmark : ∀ a a', SameLeft J J' B B' a a' → J.leftMark B a = J'.leftMark B' a' := by
    intro a a' hsame
    rw [leftMark, leftMark, mark, mark, haware, hon a a' hsame, hsame.partners.isAmong]
  have houtput : ∀ a a', SameLeft J J' B B' a a' →
      J.output (some a) none none = J'.output (some a') none none := fun a a' hsame =>
    hsame.output none
  unfold outcomes
  rw [← htype]
  rcases hjoin with hjoin | hjoin | hjoin
  · rw [hjoin]
    exact congrArg singleton
      (map_filter_of_rel h (fun a a' hsame => by rw [hon a a' hsame]) houtput)
  · rw [hjoin]
    exact congrArg singleton
      (map_of_rel h fun a a' hsame => by rw [hmark a a' hsame, hsame.output])
  · rw [hjoin]
    exact congrArg singleton
      (map_filter_of_rel h (fun a a' hsame => by rw [hmark a a' hsame]) houtput)

/-- What a semi or anti join makes of its right rows. -/
lemma outcomes_of_sameRight (htype : J.joinType = J'.joinType)
    (haware : J.nullAware = J'.nullAware) (hjoin : J.joinType = .rightSemiFilter ∨
      J.joinType = .rightSemiProject ∨ J.joinType = .rightAnti)
    (h : Multiset.Rel (SameRight J J' A A') B B') : J.outcomes A B = J'.outcomes A' B' := by
  have hon : ∀ b b', SameRight J J' A A' b b' →
      hasPartner (flip J.on) A b = hasPartner (flip J'.on) A' b' :=
    fun b b' hsame => hsame.partners.hasPartner fun k f => k.holds && f
  have hmark : ∀ b b', SameRight J J' A A' b b' → J.rightMark A b = J'.rightMark A' b' := by
    intro b b' hsame
    rw [rightMark, rightMark, mark, mark, haware, hon b b' hsame, hsame.partners.isAmong]
  have houtput : ∀ b b', SameRight J J' A A' b b' →
      J.output none (some b) none = J'.output none (some b') none := fun b b' hsame =>
    hsame.output none
  unfold outcomes
  rw [← htype]
  rcases hjoin with hjoin | hjoin | hjoin
  · rw [hjoin]
    exact congrArg singleton
      (map_filter_of_rel h (fun b b' hsame => by rw [hon b b' hsame]) houtput)
  · rw [hjoin]
    exact congrArg singleton
      (map_of_rel h fun b b' hsame => by rw [hmark b b' hsame, hsame.output])
  · rw [hjoin]
    exact congrArg singleton
      (map_filter_of_rel h (fun b b' hsame => by rw [hmark b b' hsame]) houtput)

end Membership

end JoinSpec

end Verax
