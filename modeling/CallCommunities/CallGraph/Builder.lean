import CallCommunities.CallGraph.Basic
import CallCommunities.Error
import CallCommunities.Identity
import CallCommunities.Power

/-!
# CallGraph/Builder — call graphs from observed calls

A builder collects declarations and observations and numbers the vertices in order of first mention.
An **open** builder takes both ends of every observed call as vertices.  A **closed** one knows only
declared vertices; which observations join two of them is decided when the graph is built, so a
declaration may come after the calls that need it.

Building fails only when the calls kept add up to more than `maxTotalWeight`.
-/

namespace CallCommunities

/-- The greatest admitted number of calls in one graph. -/
def maxTotalWeight : Nat := twoPow 62

/-- A number of calls from one identity to another, as an extractor reports it. -/
structure Observation where
  caller : String
  callee : String
  count : Int
deriving DecidableEq

/-- How many observations a builder leaves out, by reason. -/
structure Dropped where
  /-- The count was zero or negative. -/
  nonPositive : Nat
  /-- An end is not declared, in a closed builder. -/
  dangling : Nat
deriving DecidableEq

/-- Observed calls between two vertex names. -/
structure NamedCall where
  caller : String
  callee : String
  weight : Nat
deriving DecidableEq

/-- Collects declarations and observations. -/
structure Builder where
  granularity : Granularity
  isClosed : Bool
  vertices : Roster String
  /-- The observations with a positive count, in order. -/
  calls : Array NamedCall
  /-- The number of observations without a positive count. -/
  nonPositive : Nat
deriving DecidableEq

namespace Builder

/-- A builder without vertices and calls. -/
def empty (isClosed : Bool) (granularity : Granularity) : Builder :=
  ⟨granularity, isClosed, .empty, #[], 0⟩

/-- Adds a vertex, whether or not a call ever mentions it. -/
def declare (b : Builder) (identity : String) : Builder :=
  { b with vertices := b.vertices.mention (b.granularity.resolve identity) }

/-- Records calls; a count that is not positive is only counted. -/
def observe (b : Builder) (o : Observation) : Builder :=
  if o.count ≤ 0 then { b with nonPositive := b.nonPositive + 1 }
  else
    let caller := b.granularity.resolve o.caller
    let callee := b.granularity.resolve o.callee
    { b with
      vertices := if b.isClosed then b.vertices else (b.vertices.mention caller).mention callee
      calls := b.calls.push ⟨caller, callee, o.count.toNat⟩ }

/-- Records observations in order. -/
def observeAll (b : Builder) (observations : List Observation) : Builder :=
  observations.foldl observe b

/-- Changes how the identities of later steps are resolved. -/
def withGranularity (b : Builder) (granularity : Granularity) : Builder := { b with granularity }

/-- The arc of a call between two known vertices. -/
def arc? (vertices : Roster String) (call : NamedCall) : Option Arc := do
  let source ← vertices.indexOf? call.caller
  let target ← vertices.indexOf? call.callee
  return ⟨source, target, call.weight⟩

/-- The arcs of the calls that join two vertices known so far. -/
def kept (b : Builder) : List Arc := b.calls.toList.filterMap (arc? b.vertices)

/-- The observations left out so far. -/
def dropped (b : Builder) : Dropped :=
  ⟨b.nonPositive, b.calls.toList.countP fun c => (arc? b.vertices c).isNone⟩

/-- The graph of the calls kept. -/
def build (b : Builder) : Except Error CallGraph :=
  if maxTotalWeight < sumOver Arc.weight b.kept then .error (.weightOverflow maxTotalWeight)
  else .ok (.ofArcs b.vertices b.kept)

end Builder

/-- The graph of a list of observations, with every end of a call as a vertex. -/
def CallGraph.ofObservations (observations : List Observation) : Except Error CallGraph :=
  ((Builder.empty false .perMethod).observeAll observations).build

end CallCommunities
