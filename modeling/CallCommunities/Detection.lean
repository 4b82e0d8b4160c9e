import CallCommunities.Hierarchy

/-!
# Detection — the communities of a call graph

`detect` partitions a graph from scratch.  `redetect` continues from a partition found before: it merges
the prior communities, whatever names they go by, detects on the coarser graph and follows the result
back to the vertices.
-/

namespace CallCommunities

/-- The result of detection. -/
structure Detection where
  /-- The community identifier of each vertex, by name. -/
  assignment : SortedMap String String
  /-- The rounds made. -/
  levels : Nat
  /-- The modularity of the partition on the graph itself. -/
  modularity : Float
  warnings : List Warning

namespace Detection

/-- Whether anything kept detection from finishing as it should. -/
def hasWarnings (d : Detection) : Bool := !d.warnings.isEmpty

/-- The identifiers in use, in order of their first vertices by name. -/
def identifiers (d : Detection) : Roster String := .ofList d.assignment.values

/-- The number of communities. -/
def communityCount (d : Detection) : Nat := d.identifiers.size

/-- The result that a hierarchy and the partition of `g` found with it amount to. -/
def ofHierarchy (g : CallGraph) (h : Hierarchy) (a : Assignment) : Detection :=
  ⟨a.toNames g, h.levels.length, g.modularity a, h.warnings⟩

end Detection

/-- The communities of a graph. -/
def detect (settings : Settings) (g : CallGraph) : Detection :=
  let h := Hierarchy.ofGraph settings g
  .ofHierarchy g h h.flatten

/-- The partition of the fine graph that a partition of the coarse one stands for. -/
def Coarsening.pullBack (coarse : Coarsening) (g : CallGraph) (a : Assignment) : Assignment :=
  .tabulate g.vertexCount fun v => coarse.origin.getD (a.labelOf (coarse.projection.getD v v)) v

/-- The communities of a graph that merge those of `prior`, which has to fit the graph. -/
def redetect (settings : Settings) (g : CallGraph) (prior : SortedMap String String) :
    Except Error Detection := do
  let a ← Assignment.ofNames g prior
  let coarse ← g.coarsen? (a.canonicalize g.linkView)
  let h := Hierarchy.ofGraph settings coarse.graph
  return .ofHierarchy g h (coarse.pullBack g h.flatten)

end CallCommunities
