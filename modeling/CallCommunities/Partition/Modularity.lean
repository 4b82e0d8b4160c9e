import CallCommunities.Double.Nearest
import CallCommunities.Partition.Assignment

/-!
# Partition/Modularity — how good a partition is

With `m` the total weight, `L` the weight of the arcs inside communities and `σ_C` the degree sum of the
community `C`, the modularity of a partition is

  `Q = L / m − Σ_C (σ_C / 2m)²`.

`score` is `4m² · Q`, a whole number, for exact comparisons; `modularity` is `Q` in double precision,
its terms added in the order of the identifiers.
-/

namespace CallCommunities

namespace CallGraph

/-- The weight of the arcs inside communities, loops included. -/
def internalWeight (g : CallGraph) (a : Assignment) : Nat :=
  sumOver Arc.weight (g.arcs.filter fun e => a.labelOf e.source = a.labelOf e.target)

/-- The degree sum of every community, indexed by identifier. -/
def communityDegrees (g : CallGraph) (a : Assignment) : List Nat := a.degreeSums g.degree

/-- `4m² · Q`, exactly. -/
def score (g : CallGraph) (a : Assignment) : Int :=
  4 * g.totalWeight * g.internalWeight a - sumOver (fun s => s * s) (g.communityDegrees a)

/-- The squared share of a community with degree sum `sum` in all call ends. -/
def squaredShare (m : Float) (sum : Nat) : Float :=
  let share := Double.ofNat sum / (2.0 * m)
  share * share

/-- The modularity `Q` of a partition; zero for a graph without calls. -/
def modularity (g : CallGraph) (a : Assignment) : Float :=
  if g.totalWeight = 0 then 0.0
  else
    let m := Double.ofNat g.totalWeight
    let spread := ((g.communityDegrees a).filter (0 < ·)).foldl
      (fun spread sum => spread + squaredShare m sum) 0.0
    Double.ofNat (g.internalWeight a) / m - spread

end CallGraph

/-- The modularity difference of a gain that is given as a multiple of `1 / 2m²`; zero for a graph
without calls. -/
def modularityOfGain (gain : Int) (total : Nat) : Float :=
  if total = 0 then 0.0
  else
    let m := Double.ofNat total
    Double.ofInt gain / (2.0 * m * m)

end CallCommunities
