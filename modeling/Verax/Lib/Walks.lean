import Mathlib.Data.Multiset.Bind
import Mathlib.Data.Multiset.Filter

/-!
# Walks in a multigraph

Bags of walks over a bag of hops, each from a source vertex to a target vertex. Parallel hops and
cycles are allowed, and vertices are compared with a relation that need not be reflexive, so a hop
at an unknown vertex continues no walk.

* `walks`, `closedWalks`: all walks of a number of hops, by their definition.
* `paths`: the walks as they are built, one hop after the other, from their starts.
* `walks_eq_paths`, `closedWalks_eq_paths`: the walks are the paths that end where they should.
* `walks_eq_reverse`: the walks are those of the reversed graph, read backwards.
-/

namespace Verax.Lib.Walks

variable {S E H V : Type*}

/-! ### Hops in a row -/

section hops

variable (same : V → V → Bool) (source target : H → V)

/-- The hops leave from the vertex, each from where the one before arrived. -/
def isPath (v : V) : List H → Bool
  | [] => true
  | h :: hs => same v (source h) && isPath (target h) hs

/-- The vertex the hops arrive at. -/
def reached (v : V) (hs : List H) : V := hs.foldl (fun _ h => target h) v

/-- The hops lead from one vertex to another. -/
def isWalk (v : V) : List H → V → Bool
  | [], v' => same v v'
  | h :: hs, v' => same v (source h) && isWalk (target h) hs v'

variable {same source target} {v v' : V} {h : H} {hs : List H}

@[simp] lemma reached_nil : reached target v [] = v := rfl

@[simp] lemma reached_concat : reached target v (hs ++ [h]) = target h := by
  simp [reached]

/-- Hops lead to a vertex if they follow each other and the last arrives there. -/
lemma isWalk_eq : isWalk same source target v hs v' =
    (isPath same source target v hs && same (reached target v hs) v') := by
  induction hs generalizing v with
  | nil => simp [isWalk, isPath]
  | cons h hs ih => simp [isWalk, isPath, ih, reached, Bool.and_assoc]

lemma isPath_concat : isPath same source target v (hs ++ [h]) =
    (isPath same source target v hs && same (reached target v hs) (source h)) := by
  induction hs generalizing v with
  | nil => simp [isPath]
  | cons h' hs ih => simp [isPath, ih, reached, Bool.and_assoc]

lemma isWalk_concat : isWalk same source target v (hs ++ [h]) v' =
    (isWalk same source target v hs (source h) && same (target h) v') := by
  rw [isWalk_eq, isWalk_eq, isPath_concat, reached_concat]

/-- Read backwards, hops lead back in the reversed graph. -/
lemma isWalk_reverse (symm : ∀ a b, same a b = same b a) :
    isWalk same target source v' hs.reverse v = isWalk same source target v hs v' := by
  induction hs generalizing v with
  | nil => exact symm v' v
  | cons h hs ih => rw [List.reverse_cons, isWalk_concat, ih, isWalk, symm, Bool.and_comm]

end hops

/-! ### Sequences of hops -/

/-- The sequences of a number of hops. -/
def sequences (hops : Multiset H) : ℕ → Multiset (List H)
  | 0 => {[]}
  | n + 1 => (sequences hops n).bind fun hs => hops.map fun h => hs ++ [h]

variable {hops : Multiset H}

/-- The sequences, built from their last hop. -/
lemma sequences_succ' (n : ℕ) : sequences hops (n + 1) =
    (sequences hops n).bind fun hs => hops.map fun h => h :: hs := by
  induction n with
  | zero => simp [sequences]
  | succ n ih =>
    change (sequences hops (n + 1)).bind (fun hs => hops.map fun h => hs ++ [h]) =
      ((sequences hops n).bind fun hs => hops.map fun h => hs ++ [h]).bind
        fun hs => hops.map fun h => h :: hs
    rw [ih, Multiset.bind_assoc, Multiset.bind_assoc]
    refine Multiset.bind_congr fun hs _ => ?_
    simp only [Multiset.bind_map, List.cons_append]
    exact Multiset.bind_map_comm ..

/-- The sequences read backwards are the sequences. -/
lemma map_reverse_sequences (n : ℕ) :
    (sequences hops n).map List.reverse = sequences hops n := by
  induction n with
  | zero => simp [sequences]
  | succ n ih =>
    conv_rhs => rw [sequences_succ', ← ih]
    simp [sequences, Multiset.map_bind, Multiset.bind_map]

lemma length_of_mem_sequences {n : ℕ} {hs : List H} (h : hs ∈ sequences hops n) :
    hs.length = n := by
  induction n generalizing hs with
  | zero => simpa [sequences] using h
  | succ n ih =>
    obtain ⟨hs', hhs', h⟩ := Multiset.mem_bind.mp h
    obtain ⟨x, -, rfl⟩ := Multiset.mem_map.mp h
    simp [ih hhs']

/-! ### Bags of walks -/

section walks

variable (same : V → V → Bool) (source target : H → V)
  (starts : Multiset S) (startVertex : S → V) (hops : Multiset H)
  (ends : Multiset E) (endVertex : E → V)

/-- The walks of a number of hops from a start to an end. -/
def walks (n : ℕ) : Multiset (S × List H × E) :=
  starts.bind fun s => (sequences hops n).bind fun hs =>
    (ends.filter fun e => isWalk same source target (startVertex s) hs (endVertex e)).map
      fun e => (s, hs, e)

/-- The walks of a number of hops that end at a vertex of their start. -/
def closedWalks (endVertex : S → V) (n : ℕ) : Multiset (S × List H) :=
  starts.bind fun s =>
    ((sequences hops n).filter
      fun hs => isWalk same source target (startVertex s) hs (endVertex s)).map fun hs => (s, hs)

/-- The ways to go on by one hop. -/
def extend (p : S × List H) : Multiset (S × List H) :=
  (hops.filter fun h => same (reached target (startVertex p.1) p.2) (source h)).map
    fun h => (p.1, p.2 ++ [h])

/-- The walks of a number of hops from a start, built hop by hop. -/
def paths : ℕ → Multiset (S × List H)
  | 0 => starts.map fun s => (s, [])
  | n + 1 => (paths n).bind (extend same source target startVertex hops)

variable {same source target starts startVertex hops ends endVertex}

/-- Building hop by hop finds each start's sequences of hops that follow each other. -/
lemma paths_eq (n : ℕ) : paths same source target starts startVertex hops n =
    starts.bind fun s =>
      ((sequences hops n).filter (isPath same source target (startVertex s) ·)).map (s, ·) := by
  induction n with
  | zero => simp [paths, sequences, isPath, Multiset.filter_singleton]
  | succ n ih =>
    rw [paths, ih, Multiset.bind_assoc]
    refine Multiset.bind_congr fun s _ => ?_
    rw [Multiset.bind_map, Multiset.bind_filter, sequences, Multiset.filter_bind,
      Multiset.map_bind]
    refine Multiset.bind_congr fun hs _ => ?_
    by_cases hpath : isPath same source target (startVertex s) hs
    · simp [extend, hpath, Multiset.filter_map, isPath_concat]
    · simp [hpath, Multiset.filter_map, isPath_concat]

/-- The hops of a path are as many as it was built with. -/
lemma length_of_mem_paths {n : ℕ} {p : S × List H}
    (hp : p ∈ paths same source target starts startVertex hops n) : p.2.length = n := by
  rw [paths_eq, Multiset.mem_bind] at hp
  obtain ⟨s, -, hp⟩ := hp
  obtain ⟨hs, hhs, rfl⟩ := Multiset.mem_map.mp hp
  exact length_of_mem_sequences (Multiset.mem_of_mem_filter hhs)

/-- The walks to an end are the paths joined with the ends they arrive at. -/
theorem walks_eq_paths (n : ℕ) :
    walks same source target starts startVertex hops ends endVertex n =
      (paths same source target starts startVertex hops n).bind fun p =>
        (ends.filter fun e => same (reached target (startVertex p.1) p.2) (endVertex e)).map
          fun e => (p.1, p.2, e) := by
  rw [paths_eq, Multiset.bind_assoc, walks]
  refine Multiset.bind_congr fun s _ => ?_
  rw [Multiset.bind_map, Multiset.bind_filter]
  refine Multiset.bind_congr fun hs _ => ?_
  by_cases hpath : isPath same source target (startVertex s) hs <;> simp [isWalk_eq, hpath]

/-- The walks back to their start are the paths that arrive at it. -/
theorem closedWalks_eq_paths {endVertex : S → V} (n : ℕ) :
    closedWalks same source target starts startVertex hops endVertex n =
      (paths same source target starts startVertex hops n).filter
        fun p => same (reached target (startVertex p.1) p.2) (endVertex p.1) := by
  rw [paths_eq, Multiset.filter_bind, closedWalks]
  refine Multiset.bind_congr fun s _ => ?_
  rw [Multiset.filter_map, Multiset.filter_filter]
  simp [isWalk_eq, and_comm]

/-- The walks, one candidate after the other. -/
private lemma walks_eq_bind (n : ℕ) :
    walks same source target starts startVertex hops ends endVertex n =
      starts.bind fun s => (sequences hops n).bind fun hs => ends.bind fun e =>
        if isWalk same source target (startVertex s) hs (endVertex e) then {(s, hs, e)} else 0 := by
  refine Multiset.bind_congr fun s _ => Multiset.bind_congr fun hs _ => ?_
  rw [← Multiset.bind_singleton, Multiset.bind_filter]

/-- The walks from the starts to the ends are those of the reversed graph from the ends to the
starts, read backwards. -/
theorem walks_eq_reverse (symm : ∀ a b, same a b = same b a) (n : ℕ) :
    walks same source target starts startVertex hops ends endVertex n =
      (walks same target source ends endVertex hops starts startVertex n).map
        fun w => (w.2.2, w.2.1.reverse, w.1) := by
  have hread (s : S) (hs : List H) (e : E) :
      Multiset.map (fun w : E × List H × S => (w.2.2, w.2.1.reverse, w.1))
        (if isWalk same target source (endVertex e) hs.reverse (startVertex s) then
          {(e, hs.reverse, s)} else 0) =
      if isWalk same source target (startVertex s) hs (endVertex e) then {(s, hs, e)} else 0 := by
    rw [isWalk_reverse symm]
    split <;> simp
  rw [walks_eq_bind, walks_eq_bind]
  calc (starts.bind fun s => (sequences hops n).bind fun hs => ends.bind fun e =>
        if isWalk same source target (startVertex s) hs (endVertex e) then {(s, hs, e)} else 0)
      = starts.bind fun s => ends.bind fun e => (sequences hops n).bind fun hs =>
        if isWalk same source target (startVertex s) hs (endVertex e) then {(s, hs, e)} else 0 :=
        Multiset.bind_congr fun s _ => Multiset.bind_bind ..
    _ = ends.bind fun e => (sequences hops n).bind fun hs => starts.bind fun s =>
        if isWalk same source target (startVertex s) hs (endVertex e) then {(s, hs, e)} else 0 := by
        rw [Multiset.bind_bind]
        exact Multiset.bind_congr fun e _ => Multiset.bind_bind ..
    _ = _ := by
        rw [Multiset.map_bind]
        refine Multiset.bind_congr fun e _ => ?_
        rw [Multiset.map_bind]
        conv_rhs => rw [← map_reverse_sequences, Multiset.bind_map]
        refine Multiset.bind_congr fun hs _ => ?_
        rw [Multiset.map_bind]
        exact Multiset.bind_congr fun s _ => (hread s hs e).symm

end walks

end Verax.Lib.Walks
