import Mathlib.Init

/-!
# Join types

The join types of the plan, and the questions the passes ask of them.
-/

namespace Verax

/-- Join types. Source: velox `JoinType`, as used by `Node.cpp` and `DPhyp.cpp`. -/
inductive JoinType
  | inner | left | right | full
  | leftSemiFilter | countingLeftSemiFilter | leftSemiProject
  | rightSemiFilter | rightSemiProject | rightAnti | anti | countingAnti
  deriving DecidableEq, Repr

namespace JoinType

/-- The join type after exchanging the inputs; `none` where the source is unreachable.
Source: `Node.cpp` `Join::swapType`. -/
def swapType : JoinType → Option JoinType
  | inner => some inner
  | full => some full
  | countingLeftSemiFilter => some countingLeftSemiFilter
  | left => some right
  | right => some left
  | leftSemiFilter => some rightSemiFilter
  | rightSemiFilter => some leftSemiFilter
  | leftSemiProject => some rightSemiProject
  | rightSemiProject => some leftSemiProject
  | rightAnti | anti | countingAnti => none

/-- True for the join types whose output keeps both sides' columns.
Source: `DPhyp.cpp` `keepsBothInputs`. -/
def keepsBothInputs : JoinType → Bool
  | inner | left | right | full => true
  | _ => false

/-- True for the joins that emit only rows whose equi-keys are equal.
Source: `JoinHypergraph.cpp` `provesKeyEquality`. -/
def provesKeyEquality : JoinType → Bool
  | inner | countingLeftSemiFilter => true
  | _ => false

/-- Whether each side of a join has a property. Source: `Node.h` `Join::Sides`. -/
structure Sides where
  left : Bool
  right : Bool
  deriving DecidableEq, Repr

/-- The sides whose rows a join does not pad: every output row has one of each.
Source: `Node.cpp` `Join::preservedSides`. -/
def preservedSides : JoinType → Sides
  | inner => ⟨true, true⟩
  | left | leftSemiFilter | countingLeftSemiFilter | leftSemiProject | anti | countingAnti =>
      ⟨true, false⟩
  | right | rightSemiFilter | rightSemiProject | rightAnti => ⟨false, true⟩
  | full => ⟨false, false⟩

/-- Source: `Node.cpp` `Join::canBroadcastBuild`. -/
def canBroadcastBuild : JoinType → Bool
  | inner | left | leftSemiFilter | leftSemiProject | anti => true
  | _ => false

/-- Source: `Node.cpp` `Join::canBroadcastProbe`. -/
def canBroadcastProbe : JoinType → Bool
  | inner | right | rightSemiFilter | rightSemiProject | rightAnti => true
  | _ => false

end JoinType

end Verax
