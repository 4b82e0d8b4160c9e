import CallCommunities.Partition.Coarsening
import CallCommunities.Partition.Connected
import CallCommunities.Partition.LocalMoving
import CallCommunities.Settings

/-!
# Hierarchy — rounds of moving, splitting and merging

Every round starts with each vertex of the current graph in a community of its own, improves that by
local moving, makes the communities connected if the settings ask for it, and merges them into the
vertices of the next graph.  The rounds end when nothing moves or when the ceiling is reached.

A hierarchy keeps the graph of every round; `flatten` follows each vertex of the first graph to the top.
-/

namespace CallCommunities

/-- What can go wrong in detection without spoiling the result. -/
inductive Warning where
  /-- Local moving reached its ceiling before an optimum; the best partition found was used. -/
  | iterationLimitReached (level sweeps : Nat)
  /-- The ceiling on rounds was reached while vertices could still move. -/
  | levelLimitReached (levels : Nat)
deriving DecidableEq

/-- The message for people. -/
def Warning.message : Warning → String
  | iterationLimitReached level sweeps =>
    s!"level {level}: no local optimum after {sweeps} sweeps, using best assignment found"
  | levelLimitReached levels =>
    s!"stopped after {levels} aggregation rounds with improving moves left"

/-- One round: its graph, the partition that was merged, and the vertex of the next graph that each
vertex went to. -/
structure Level where
  graph : CallGraph
  assignment : Assignment
  projection : Array Nat

/-- The rounds from a graph up to its coarsest form. -/
structure Hierarchy where
  levels : List Level
  /-- The graph on which the rounds ended. -/
  top : CallGraph
  /-- The vertex of the first graph that each vertex of `top` is named after. -/
  origin : Array Nat
  warnings : List Warning

namespace Hierarchy

/-- The partition that a round merges. -/
def partitionOf (settings : Settings) (view : LinkView) (a : Assignment) : Assignment :=
  if settings.refine then a.refine view else a.canonicalize view

/-- The rounds from `g` on, at most `remaining` of them, when `depth` rounds went before and the vertices
of `g` are named after the vertices `origin` of the first graph. -/
def climb (settings : Settings) :
    (remaining depth : Nat) → (g : CallGraph) → (origin : Array Nat) → Hierarchy
  | 0, depth, g, origin =>
    let optimal := LocalMoving.isLocalOptimum g.linkView (.singletons g.vertexCount)
    ⟨[], g, origin, if optimal then [] else [.levelLimitReached depth]⟩
  | remaining + 1, depth, g, origin =>
    let view := g.linkView
    let pass := LocalMoving.run view (.singletons g.vertexCount) settings.maxIterations
    let warnings := if pass.converged then [] else [.iterationLimitReached depth pass.sweeps]
    if pass.improved then
      let a := partitionOf settings view pass.assignment
      if a.communityCount = g.vertexCount then ⟨[], g, origin, warnings⟩
      else
        let coarse := g.coarsen a
        let rest := climb settings remaining (depth + 1) coarse.graph
          (coarse.origin.map fun v => origin.getD v v)
        ⟨⟨g, a, coarse.projection⟩ :: rest.levels, rest.top, rest.origin, warnings ++ rest.warnings⟩
    else ⟨[], g, origin, warnings⟩

/-- The rounds of a graph. -/
def ofGraph (settings : Settings) (g : CallGraph) : Hierarchy :=
  climb settings settings.maxLevels 0 g g.vertexList.toArray

/-- The graph of the first round. -/
def base (h : Hierarchy) : CallGraph :=
  match h.levels with
  | [] => h.top
  | level :: _ => level.graph

/-- The vertex of the top graph that a vertex of the first graph ends in. -/
def topOf (h : Hierarchy) (v : Nat) : Nat :=
  h.levels.foldl (fun v level => level.projection.getD v v) v

/-- The communities of the first graph: each vertex belongs to the vertex that its top vertex is named
after. -/
def flatten (h : Hierarchy) : Assignment :=
  .tabulate h.base.vertexCount fun v => h.origin.getD (h.topOf v) v

end Hierarchy

end CallCommunities
