import CallCommunities.Candidate
import CallCommunities.Detection
import CallCommunities.Double.Shortest
import CallCommunities.Json.Printer

/-!
# Document — the result of detection as JSON
-/

namespace CallCommunities

open Json (Value)

/-- A warning with its kind. -/
def Warning.toJson : Warning → Value
  | iterationLimitReached level sweeps =>
    .ofMembers [("kind", .ofText "iteration_limit_reached"), ("level", .ofNat level),
      ("sweeps", .ofNat sweeps)]
  | levelLimitReached levels =>
    .ofMembers [("kind", .ofText "level_limit_reached"), ("levels", .ofNat levels)]

/-- A candidate with its members, those called from outside, and its classes. -/
def Candidate.toJson (c : Candidate) : Value :=
  .ofMembers [("id", .ofText c.identifier), ("members", .ofTexts c.members),
    ("interface", .ofTexts c.entryPoints), ("classes", .ofTexts c.classes)]

/-- The document of a detection on a graph: assignment, candidates, rounds, modularity, warnings. -/
def Detection.toJson (g : CallGraph) (d : Detection) : Value :=
  .ofMembers [
    ("assignment", .ofMembers (d.assignment.entries.map fun (v, c) => (v, .ofText c))),
    ("candidates", .array ((Candidate.ofAssignment g d.assignment).map Candidate.toJson)),
    ("levels", .ofNat d.levels),
    ("modularity", .number (Double.text d.modularity)),
    ("warnings", .array (d.warnings.map Warning.toJson))]

end CallCommunities
