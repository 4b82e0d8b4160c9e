import CallCommunities.CallGraph.Basic
import CallCommunities.Identity
import CallCommunities.Report

/-!
# Listing — the calls of a graph for people to read

The listing goes through the vertices that call anything in the order of their names.  A heading names
the class wherever it differs from the one before; below a caller stand its calls in the order of the
callees' names.
-/

namespace CallCommunities

/-- One line of a listing. -/
inductive ListingLine where
  | summary (vertices arcs weight : Nat)
  | heading (className : String)
  | caller (name : String)
  | call (callee : String) (weight : Nat)
deriving DecidableEq

namespace ListingLine

/-- The text of a line. -/
def render : ListingLine → String
  | summary vertices arcs weight =>
    s!"Call graph: {vertices} vertices, {arcs} edges, total weight {weight}"
  | heading className => className
  | caller name => s!"  {name}"
  | call callee weight => s!"    -> {callee} x{weight}"

end ListingLine

namespace CallGraph

/-- The vertices that call anything, by name. -/
def callers (g : CallGraph) : List Nat :=
  (SortedMap.ofList ((g.vertexList.filter fun v => !(g.outgoing v).isEmpty).map
    fun v => (g.name v, v))).values

/-- A caller and its calls. -/
def callLines (g : CallGraph) (v : Nat) : List ListingLine :=
  .caller (g.name v) ::
    (SortedMap.ofList ((g.outgoing v).map fun (t, w) => (g.name t, w))).entries.map
      fun (callee, weight) => .call callee weight

/-- Callers with their calls, below headings for the classes; `current` is the class of the last
heading. -/
def groupLines (g : CallGraph) : (current : Option String) → List Nat → List ListingLine
  | _, [] => []
  | current, v :: rest =>
    let className := classOf (g.name v)
    let heading := if current = some className then [] else [.heading className]
    heading ++ g.callLines v ++ groupLines g (some className) rest

/-- The lines of the listing. -/
def listing (g : CallGraph) : List ListingLine :=
  .summary g.vertexCount g.arcCount g.totalWeight :: g.groupLines none g.callers

/-- The text of the listing. -/
def renderListing (g : CallGraph) : String :=
  String.join (g.listing.map fun l => line l.render)

end CallGraph

end CallCommunities
