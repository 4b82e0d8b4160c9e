import CallCommunities.Text.Quoted

/-!
# Error — why an operation of the library fails

Only what a caller has to hear about is an error: an assignment that does not fit its graph, call
counts too large for exact arithmetic, and unusable configurations.  What detection can live with
is reported as a warning instead.
-/

namespace CallCommunities

/-- The cause of a failure. -/
inductive Error where
  /-- An assignment whose keys are not the vertices of the graph: how many vertices it misses, how
  many keys it has besides, and some of either. -/
  | incompleteAssignment (missing stale : Nat) (sample : List String)
  /-- Call counts that add up to more than the limit. -/
  | weightOverflow (limit : Nat)
  /-- A community identifier that is no vertex of the graph. -/
  | unknownCommunity (identifier : String)
  /-- A configuration value outside its range. -/
  | invalidConfig (field problem : String)
  /-- A configuration file that cannot be read as text. -/
  | unreadableConfig (path : String)
  /-- A configuration text that does not describe a configuration. -/
  | malformedConfig
deriving DecidableEq

namespace Error

/-- The message for people. -/
def message : Error → String
  | incompleteAssignment missing stale sample =>
    s!"Assignment mismatch: {missing} vertices unassigned, {stale} unknown keys (e.g. "
      ++ Text.quotedList sample ++ ")"
  | weightOverflow limit => s!"Total call weight exceeds {limit}; scale the observed counts down"
  | unknownCommunity identifier =>
    s!"Community identifier '{identifier}' is not a vertex of the graph"
  | invalidConfig field problem => s!"Configuration error in '{field}': {problem}"
  | unreadableConfig path => s!"Failed to read configuration {path}"
  | malformedConfig => "The configuration text is malformed"

/-- Whether the caller broke a rule of the library, as opposed to handing in a bad file. -/
def isInvariantViolation : Error → Bool
  | incompleteAssignment .. | unknownCommunity _ => true
  | _ => false

end Error

end CallCommunities
