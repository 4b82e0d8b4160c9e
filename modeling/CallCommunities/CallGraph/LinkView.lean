import CallCommunities.CallGraph.Basic

/-!
# CallGraph/LinkView — a call graph without directions and names

Community detection looks at a graph only through the calls between unordered pairs of vertices, the
degrees, and the order of the names.  A `LinkView` tabulates exactly that, once for each graph.
-/

namespace CallCommunities

/-- The undirected view of a graph, tabulated by vertex. -/
structure LinkView where
  /-- The total weight. -/
  total : Nat
  /-- The position of each vertex by name. -/
  ranks : Array Nat
  degrees : Array Nat
  /-- The other vertices each vertex shares calls with, and how many calls. -/
  links : Array (List (Nat × Nat))
deriving DecidableEq

namespace LinkView

/-- The number of vertices. -/
def size (view : LinkView) : Nat := view.degrees.size

/-- The vertices in index order. -/
def vertexList (view : LinkView) : List Nat := List.range view.size

/-- The position of a vertex by name; past the last vertex it is zero. -/
def rank (view : LinkView) (v : Nat) : Nat := view.ranks.getD v 0

/-- The degree of a vertex; past the last vertex it is zero. -/
def degree (view : LinkView) (v : Nat) : Nat := view.degrees.getD v 0

/-- The other vertices that a vertex shares calls with, in index order, each with the calls of both
directions. -/
def linksOf (view : LinkView) (v : Nat) : List (Nat × Nat) := view.links.getD v []

/-- Of two vertices the one whose name comes first. -/
def lowest (view : LinkView) (a b : Nat) : Nat := if view.rank b < view.rank a then b else a

end LinkView

/-- The undirected view of a call graph. -/
def CallGraph.linkView (g : CallGraph) : LinkView where
  total := g.totalWeight
  ranks := (g.vertexList.map g.rank).toArray
  degrees := (g.vertexList.map g.degree).toArray
  links := (g.vertexList.map g.incident).toArray

end CallCommunities
