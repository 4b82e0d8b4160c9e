import CallCommunities.CallGraph.Basic
import CallCommunities.Identity

/-!
# Candidate — communities as proposed services

Every community of a named assignment is a candidate for a service: its members, those of them that are
called from outside, and the classes that they come from, each list in increasing order.
-/

namespace CallCommunities

/-- A community proposed as a service. -/
structure Candidate where
  identifier : String
  members : List String
  /-- The members called from other communities. -/
  entryPoints : List String
  /-- The classes of the members. -/
  classes : List String
deriving DecidableEq

namespace Candidate

/-- Whether the members come from more than one class. -/
def crossesClasses (c : Candidate) : Bool := decide (1 < c.classes.length)

/-- The callees of the calls that join two communities, each with its community.  Vertices without a
community are passed over. -/
def crossings (g : CallGraph) (assignment : SortedMap String String) : List (String × String) :=
  let communities := (g.vertexList.map fun v => assignment.get? (g.name v)).toArray
  g.arcs.filterMap fun a =>
    match communities.getD a.source none, communities.getD a.target none with
    | some caller, some callee => if caller = callee then none else some (callee, g.name a.target)
    | _, _ => none

/-- The candidates of an assignment, by identifier. -/
def ofAssignment (g : CallGraph) (assignment : SortedMap String String) : List Candidate :=
  let crossings := crossings g assignment
  (SortedMap.sortDistinct assignment.values).map fun c =>
    let members := (assignment.entries.filter fun e => e.2 = c).map (·.1)
    { identifier := c
      members
      entryPoints := SortedMap.sortDistinct ((crossings.filter fun e => e.1 = c).map (·.2))
      classes := SortedMap.sortDistinct (members.map classOf) }

end Candidate

end CallCommunities
