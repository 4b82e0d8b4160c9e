import CallCommunities.Partition.Modularity

/-!
# Partition/LocalMoving — improving a partition one vertex at a time

A **sweep** visits every vertex in index order.  The vertex looks at its own community and at those of
its neighbours, and leaves for the best of them when that is strictly better than staying.  Moving `v`
of degree `k` to `D` is worth

  `2m · e(v, D) − k · σ_D`

in units of `1 / 2m²`, where `e(v, D)` is the weight between `v` and `D` and `σ_D` the degree sum of `D`
without `v`.  All of it is exact, and **of equally good communities the one with the lower-named
identifier wins**.  Sweeps go on until one moves nothing or the ceiling is reached.
-/

namespace CallCommunities

/-- What local moving carries from vertex to vertex. -/
structure Moving where
  assignment : Assignment
  /-- The degree sum of every community, indexed by identifier. -/
  sums : Array Nat
  /-- The moves made so far. -/
  moves : Nat
  /-- What the moves so far are worth, in units of `1 / 2m²`. -/
  gain : Int
deriving DecidableEq

namespace Moving

/-- The start from a partition. -/
def start (view : LinkView) (a : Assignment) : Moving :=
  ⟨a, (a.degreeSums view.degree).toArray, 0, 0⟩

/-- Adds to the weight counted for a community, which joins the list at its end. -/
def tally (c w : Nat) : List (Nat × Nat) → List (Nat × Nat)
  | [] => [(c, w)]
  | (d, x) :: rest => if d = c then (d, x + w) :: rest else (d, x) :: tally c w rest

/-- The weight between `v` and every community around it: its own first, then the others in the order
in which its neighbours show them. -/
def contacts (view : LinkView) (a : Assignment) (v : Nat) : List (Nat × Nat) :=
  (view.linksOf v).foldl (fun near (u, w) => tally (a.labelOf u) w near) [(a.labelOf v, 0)]

/-- What it is worth to a vertex of degree `degree` to be in a community, given the weight between the
two and the degree sum of the community without the vertex. -/
def worth (view : LinkView) (degree weight sum : Nat) : Int :=
  2 * (view.total : Int) * weight - (degree : Int) * sum

/-- The better of two communities with their worths; on a tie the one with the lower-named identifier. -/
def prefer (view : LinkView) (best candidate : Nat × Int) : Nat × Int :=
  if best.2 < candidate.2 ∨ (candidate.2 = best.2 ∧ view.rank candidate.1 < view.rank best.1) then
    candidate
  else best

/-- The visit of one vertex. -/
def visit (view : LinkView) (s : Moving) (v : Nat) : Moving :=
  let own := s.assignment.labelOf v
  let degree := view.degree v
  let others := s.sums.modify own (· - degree)
  let offers := (contacts view s.assignment v).map fun (c, weight) =>
    (c, worth view degree weight (others.getD c 0))
  let stay := (offers.lookup own).getD 0
  let best := offers.foldl (prefer view) (own, stay)
  if stay < best.2 then
    { assignment := s.assignment.relabel v best.1
      sums := others.modify best.1 (· + degree)
      moves := s.moves + 1
      gain := s.gain + (best.2 - stay) }
  else s

/-- The visit of every vertex, in index order. -/
def sweep (view : LinkView) (s : Moving) : Moving := view.vertexList.foldl (visit view) s

end Moving

/-- The result of local moving. -/
structure LocalMoving where
  assignment : Assignment
  /-- The moves made. -/
  moves : Nat
  /-- The sweeps made, with the one that moved nothing. -/
  sweeps : Nat
  /-- Whether the last sweep moved nothing. -/
  converged : Bool
  /-- What the moves are worth together, in units of `1 / 2m²`. -/
  gain : Int
deriving DecidableEq

namespace LocalMoving

/-- Whether some vertex moved. -/
def improved (r : LocalMoving) : Bool := decide (0 < r.moves)

/-- The modularity gained over the starting partition. -/
def modularityGain (view : LinkView) (r : LocalMoving) : Float :=
  modularityOfGain r.gain view.total

/-- Sweeps until one moves nothing, but at most `ceiling` of them. -/
def sweepUpTo (view : LinkView) : (ceiling : Nat) → Moving → LocalMoving
  | 0, s => ⟨s.assignment, s.moves, 0, false, s.gain⟩
  | ceiling + 1, s =>
    let next := s.sweep view
    if next.moves = s.moves then ⟨next.assignment, next.moves, 1, true, next.gain⟩
    else
      let rest := sweepUpTo view ceiling next
      { rest with sweeps := rest.sweeps + 1 }

/-- Local moving from a partition, for at most `maxSweeps` sweeps.  A graph without calls has nothing
to improve. -/
def run (view : LinkView) (a : Assignment) (maxSweeps : Nat) : LocalMoving :=
  if view.total = 0 then ⟨a, 0, 0, true, 0⟩
  else sweepUpTo view maxSweeps (.start view a)

/-- Whether no vertex has a strictly improving move. -/
def isLocalOptimum (view : LinkView) (a : Assignment) : Bool := !(run view a 1).improved

end LocalMoving

end CallCommunities
