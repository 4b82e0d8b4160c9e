import CallCommunities.Error
import CallCommunities.Identity

/-!
# Settings — what can be set about detection

The ceilings bound the work; both have to leave room for one sweep and one round.
-/

namespace CallCommunities

/-- The settings of detection. -/
structure Settings where
  /-- The ceiling on the sweeps of one round. -/
  maxIterations : Nat
  /-- The ceiling on the rounds. -/
  maxLevels : Nat
  /-- Whether communities are split into their connected parts before they are merged. -/
  refine : Bool
  /-- What a vertex stands for when a graph is read. -/
  granularity : Granularity
deriving DecidableEq

namespace Settings

/-- The settings that hold where nothing else is said. -/
def default : Settings := ⟨100, 32, true, .perMethod⟩

/-- Accepts settings whose ceilings are positive. -/
def validate (s : Settings) : Except Error Unit :=
  if s.maxIterations = 0 then
    .error (.invalidConfig "max_iterations" "at least one optimizer sweep is required")
  else if s.maxLevels = 0 then
    .error (.invalidConfig "max_levels" "at least one aggregation level is required")
  else .ok ()

end Settings

end CallCommunities
