import CallCommunities.Partition.Assignment

/-!
# Partition/Coarsening — the graph of the communities

Coarsening merges every community into one vertex, named after its identifier and numbered by the first
vertex that it contains.  The weight of an arc goes to the arc between the two communities, which is a
loop when they are the same, so **total weight and community degrees carry over**.
-/

namespace CallCommunities

/-- A coarser graph and what its vertices stand for. -/
structure Coarsening where
  graph : CallGraph
  /-- The coarse vertex of each vertex. -/
  projection : Array Nat
  /-- The identifier of the community that each coarse vertex stands for. -/
  origin : Array Nat

namespace CallGraph

/-- The communities in the order of their first vertices. -/
def communityRoster (g : CallGraph) (a : Assignment) : Roster Nat :=
  .ofList (g.vertexList.map a.labelOf)

/-- The graph of the communities of an assignment that fits. -/
def coarsen (g : CallGraph) (a : Assignment) : Coarsening :=
  let roster := g.communityRoster a
  let place := fun v => (roster.indexOf? (a.labelOf v)).getD 0
  let projection := (g.vertexList.map place).toArray
  { graph := .ofArcs (.ofList (roster.items.map g.name))
      (g.arcs.map fun e => ⟨projection.getD e.source 0, projection.getD e.target 0, e.weight⟩)
    projection
    origin := roster.items.toArray }

/-- The graph of the communities of an assignment, which has to label exactly the vertices. -/
def coarsen? (g : CallGraph) (a : Assignment) : Except Error Coarsening :=
  if a.size ≠ g.vertexCount then
    .error (.incompleteAssignment (g.vertexCount - a.size) (a.size - g.vertexCount) [])
  else .ok (g.coarsen a)

end CallGraph

end CallCommunities
