import CallCommunities.Hierarchy
import CallCommunities.Proofs.Partition.Parts
import CallCommunities.Proofs.Partition.Sweeps

/-!
# Proofs/Hierarchy/Rounds — the rounds as one recursion on the graph

A round from singletons either finds a partition worth merging or finds nothing (`next?`), and a run
of at most `r` rounds is out of rounds, stops, or goes on from the coarse graph: that is the shape
of every induction over a run (`round_induction`).

**A round that moves merges** (`next?_eq_some_iff`).  Splitting the communities never undoes every
merge: the parts score at least as well as the communities, and those score better than singletons.
-/

namespace CallCommunities

open Assignment CallGraph

/-- The settings with another ceiling on rounds. -/
def Settings.upTo (settings : Settings) (r : ℕ) : Settings := { settings with maxLevels := r }

@[simp] theorem Settings.maxLevels_upTo (settings : Settings) (r : ℕ) :
    (settings.upTo r).maxLevels = r := rfl

/-- The warning of a run that `depth` rounds went before. -/
def Warning.deeper (depth : ℕ) : Warning → Warning
  | iterationLimitReached level sweeps => iterationLimitReached (level + depth) sweeps
  | levelLimitReached levels => levelLimitReached (levels + depth)

@[simp] theorem Warning.deeper_zero (w : Warning) : w.deeper 0 = w := by cases w <;> rfl

theorem Warning.deeper_deeper (w : Warning) (i j : ℕ) :
    (w.deeper i).deeper j = w.deeper (i + j) := by
  cases w <;> simp only [deeper, Nat.add_assoc]

/-- A graph some two vertices of which are better together than apart. -/
def CallGraph.Mergeable (g : CallGraph) : Prop :=
  ∃ u v, u < g.vertexCount ∧ v < g.vertexCount ∧ u ≠ v ∧ 0 < g.balance u v

namespace Hierarchy

variable {settings : Settings} {g : CallGraph} {a b : Assignment} {r depth u v : ℕ}

/-! ## One round -/

/-- Local moving from singletons. -/
def pass (settings : Settings) (g : CallGraph) : LocalMoving :=
  LocalMoving.run g.linkView (.singletons g.vertexCount) settings.maxIterations

/-- The partition that a round merges, if there is anything to merge. -/
def next? (settings : Settings) (g : CallGraph) : Option Assignment :=
  let a := partitionOf settings g.linkView (pass settings g).assignment
  if (pass settings g).improved ∧ a.communityCount ≠ g.vertexCount then some a else none

/-- The warnings of the round that `depth` rounds went before. -/
def passWarnings (settings : Settings) (depth : ℕ) (g : CallGraph) : List Warning :=
  if (pass settings g).converged then []
  else [.iterationLimitReached depth (pass settings g).sweeps]

theorem valid_pass (settings : Settings) (g : CallGraph) :
    (pass settings g).assignment.Valid g.vertexCount :=
  (LocalMoving.run_outcome (valid_singletons _) _).valid

theorem canonical_partitionOf (settings : Settings) (h : a.Valid g.vertexCount) :
    Canonical g (partitionOf settings g.linkView a) := by
  unfold partitionOf
  split
  · exact canonical_refine g a
  · exact canonical_canonicalize h.1

theorem score_le_score_partitionOf (settings : Settings) (h : a.Valid g.vertexCount) :
    g.score a ≤ g.score (partitionOf settings g.linkView a) := by
  unfold partitionOf
  split
  · exact score_le_score_refine h
  · exact (score_congr h (canonical_canonicalize h.1).valid (sameGroups_canonicalize h.1)).le

/-- **A pass that moves anything leaves a partition that beats singletons.** -/
theorem score_lt_score_partitionOf (himp : (pass settings g).improved = true) :
    g.score (singletons g.vertexCount)
      < g.score (partitionOf settings g.linkView (pass settings g).assignment) :=
  (LocalMoving.score_lt_of_improved (valid_singletons _) himp).trans_le
    (score_le_score_partitionOf settings (valid_pass settings g))

/-- As many communities as vertices are singletons. -/
theorem score_eq_of_communityCount (h : a.Valid g.vertexCount)
    (hcount : a.communityCount = g.vertexCount) :
    g.score a = g.score (singletons g.vertexCount) := by
  refine score_congr h (valid_singletons _) ⟨h.1.trans (size_singletons _).symm, ?_⟩
  intro u v hu hv
  rw [labelOf_singletons, labelOf_singletons]
  exact ⟨h.communityCount_eq_iff.mp hcount u (h.1 ▸ hu) v (h.1 ▸ hv), fun huv => huv ▸ rfl⟩

/-- **A pass that moves anything leaves fewer communities than vertices.** -/
theorem communityCount_partitionOf_lt (himp : (pass settings g).improved = true) :
    (partitionOf settings g.linkView (pass settings g).assignment).communityCount
      < g.vertexCount := by
  have hvalid := (canonical_partitionOf settings (valid_pass settings g)).valid
  refine lt_of_le_of_ne hvalid.communityCount_le fun heq => ?_
  -- Were nothing merged in the end, the score would be that of singletons again.
  exact absurd (score_eq_of_communityCount hvalid heq) (score_lt_score_partitionOf himp).ne'

/-- **A round that moves merges.** -/
theorem next?_eq_some_iff : next? settings g = some a
    ↔ (pass settings g).improved = true
      ∧ a = partitionOf settings g.linkView (pass settings g).assignment := by
  rw [next?, Option.ite_none_right_eq_some, Option.some_inj]
  refine ⟨fun h => ⟨h.1.1, h.2.symm⟩, fun h => ⟨⟨h.1, ?_⟩, h.2.symm⟩⟩
  exact (communityCount_partitionOf_lt h.1).ne

theorem next?_eq_none_iff : next? settings g = none ↔ (pass settings g).improved = false := by
  rw [← Bool.not_eq_true, ← not_iff_not, not_not, ← ne_eq, Option.ne_none_iff_exists']
  simp only [next?_eq_some_iff, exists_and_left, exists_eq, and_true]

theorem canonical_of_next? (h : next? settings g = some a) : Canonical g a :=
  (next?_eq_some_iff.mp h).2 ▸ canonical_partitionOf settings (valid_pass settings g)

theorem valid_of_next? (h : next? settings g = some a) : a.Valid g.vertexCount :=
  (canonical_of_next? h).valid

theorem score_lt_of_next? (h : next? settings g = some a) :
    g.score (singletons g.vertexCount) < g.score a := by
  obtain ⟨himp, rfl⟩ := next?_eq_some_iff.mp h
  exact score_lt_score_partitionOf himp

/-- **With a sweep to spend, a round finds something exactly when some two vertices are better
together.** -/
theorem next?_eq_none_iff_not_mergeable (hk : 0 < settings.maxIterations) :
    next? settings g = none ↔ ¬ g.Mergeable := by
  rw [next?_eq_none_iff, ← Bool.not_eq_true]
  exact not_congr (LocalMoving.improved_singletons_iff g hk)

theorem isLocalOptimum_singletons_iff (g : CallGraph) :
    LocalMoving.isLocalOptimum g.linkView (singletons g.vertexCount) = true ↔ ¬ g.Mergeable := by
  rw [LocalMoving.isLocalOptimum, Bool.not_eq_true', ← Bool.not_eq_true]
  exact not_congr (LocalMoving.improved_singletons_iff g Nat.one_pos)

/-- A pass that has sweeps to spend and moves nothing has nothing to warn of. -/
theorem passWarnings_eq_nil (hk : 0 < settings.maxIterations) (h : next? settings g = none) :
    passWarnings settings depth g = [] := by
  have hmoves : (pass settings g).moves = 0 := by
    have himp := next?_eq_none_iff.mp h
    rw [← Bool.not_eq_true, LocalMoving.improved_iff] at himp
    omega
  exact if_pos ((LocalMoving.run_outcome (valid_singletons _) _).converged hk hmoves)

theorem deeper_passWarnings (settings : Settings) (i j : ℕ) (g : CallGraph) :
    (passWarnings settings i g).map (.deeper j) = passWarnings settings (i + j) g := by
  unfold passWarnings
  split <;> rfl

/-! ## The run -/

theorem climb_of_none (h : next? settings g = none) (r depth : ℕ) (origin : Array ℕ) :
    climb settings (r + 1) depth g origin = ⟨[], g, origin, passWarnings settings depth g⟩ := by
  have himp : (LocalMoving.run g.linkView (singletons g.vertexCount)
    settings.maxIterations).improved = false := next?_eq_none_iff.mp h
  rw [climb, himp]
  rfl

/-- A run with one more round in front of it. -/
def under (rest : Hierarchy) (level : Level) (warnings : List Warning) : Hierarchy where
  levels := level :: rest.levels
  top := rest.top
  origin := rest.origin
  warnings := warnings ++ rest.warnings

theorem topOf_under (rest : Hierarchy) (level : Level) (warnings : List Warning) (v : ℕ) :
    (rest.under level warnings).topOf v = rest.topOf (level.projection.getD v v) := rfl

/-- The table of names of the coarse graph, given the one of the graph. -/
def lift (g : CallGraph) (a : Assignment) (origin : Array ℕ) : Array ℕ :=
  (g.coarsen a).origin.map fun v => origin.getD v v

theorem climb_of_some (h : next? settings g = some a) (r depth : ℕ) (origin : Array ℕ) :
    climb settings (r + 1) depth g origin
      = (climb settings r (depth + 1) (g.coarsen a).graph (lift g a origin)).under
        ⟨g, a, (g.coarsen a).projection⟩ (passWarnings settings depth g) := by
  obtain ⟨himp, ha⟩ := next?_eq_some_iff.mp h
  rw [next?, ← ha, Option.ite_none_right_eq_some] at h
  have himp : (LocalMoving.run g.linkView (singletons g.vertexCount)
    settings.maxIterations).improved = true := himp
  have hcount : (partitionOf settings g.linkView (LocalMoving.run g.linkView
    (singletons g.vertexCount) settings.maxIterations).assignment).communityCount
      ≠ g.vertexCount := ha ▸ h.1.2
  rw [climb, himp, if_pos rfl, if_neg hcount, ha]
  rfl

/-- **A run is out of rounds, or stops, or makes a round and goes on from the coarse graph.** -/
theorem round_induction (settings : Settings) {motive : ℕ → CallGraph → Prop}
    (zero : ∀ g, motive 0 g)
    (stop : ∀ r g, next? settings g = none → motive (r + 1) g)
    (step : ∀ r g a, next? settings g = some a → motive r (g.coarsen a).graph → motive (r + 1) g) :
    ∀ (r : ℕ) (g : CallGraph), motive r g
  | 0, g => zero g
  | r + 1, g => by
    rcases hnext : next? settings g with _ | a
    · exact stop r g hnext
    · exact step r g a hnext (round_induction settings zero stop step r _)

/-- **Where a run starts makes no difference to its rounds**, and its warnings count on from
there. -/
theorem climb_eq_climb (settings : Settings) (r depth : ℕ) (g : CallGraph) (o o' : Array ℕ) :
    (climb settings r depth g o).levels = (climb settings r 0 g o').levels
      ∧ (climb settings r depth g o).top = (climb settings r 0 g o').top
      ∧ (climb settings r depth g o).warnings
        = (climb settings r 0 g o').warnings.map (.deeper depth) := by
  induction r, g using round_induction settings generalizing depth o o' with
  | zero g =>
    refine ⟨rfl, rfl, ?_⟩
    simp only [climb]
    split
    · rfl
    · rw [List.map_singleton, Warning.deeper, Nat.zero_add]
  | stop r g h =>
    rw [climb_of_none h, climb_of_none h, deeper_passWarnings, Nat.zero_add]
    exact ⟨rfl, rfl, rfl⟩
  | step r g a h ih =>
    rw [climb_of_some h, climb_of_some h]
    obtain ⟨hl, ht, hw⟩ := ih (depth + 1) (lift g a o) #[]
    obtain ⟨hl', ht', hw'⟩ := ih 1 (lift g a o') #[]
    refine ⟨congrArg (List.cons _) (hl.trans hl'.symm), ht.trans ht'.symm, ?_⟩
    simp only [under, List.map_append, deeper_passWarnings, Nat.zero_add, hw, hw', List.map_map]
    refine congrArg _ (List.map_congr_left fun w _ => ?_)
    rw [Function.comp_apply, Warning.deeper_deeper, Nat.add_comm]

/-- The run from a graph, for at most `r` rounds. -/
def rounds (settings : Settings) (r : ℕ) (g : CallGraph) : Hierarchy :=
  climb settings r 0 g g.vertexList.toArray

theorem ofGraph_eq_rounds (settings : Settings) (g : CallGraph) :
    ofGraph settings g = rounds settings settings.maxLevels g := rfl

theorem rounds_of_none (h : next? settings g = none) (r : ℕ) :
    rounds settings (r + 1) g = ⟨[], g, g.vertexList.toArray, passWarnings settings 0 g⟩ :=
  climb_of_none h r 0 _

/-- **The first round of a run, and the rest.** -/
theorem rounds_of_some (h : next? settings g = some a) (r : ℕ) :
    (rounds settings (r + 1) g).levels = ⟨g, a, (g.coarsen a).projection⟩
        :: (rounds settings r (g.coarsen a).graph).levels
      ∧ (rounds settings (r + 1) g).top = (rounds settings r (g.coarsen a).graph).top
      ∧ (rounds settings (r + 1) g).warnings = passWarnings settings 0 g
        ++ (rounds settings r (g.coarsen a).graph).warnings.map (.deeper 1) := by
  rw [rounds, climb_of_some h]
  obtain ⟨hl, ht, hw⟩ := climb_eq_climb settings r 1 (g.coarsen a).graph
    (lift g a g.vertexList.toArray) (g.coarsen a).graph.vertexList.toArray
  exact ⟨congrArg _ hl, ht, congrArg _ hw⟩

@[simp] theorem base_rounds (settings : Settings) (r : ℕ) (g : CallGraph) :
    (rounds settings r g).base = g := by
  induction r, g using round_induction settings with
  | zero g => rfl
  | stop r g h => rw [rounds_of_none h]; rfl
  | step r g a h => rw [base, (rounds_of_some h r).1]

/-- Without anything to merge there are no rounds. -/
theorem levels_of_none (h : next? settings g = none) (r : ℕ) :
    (rounds settings r g).levels = [] ∧ (rounds settings r g).top = g := by
  rcases r with _ | r
  · exact ⟨rfl, rfl⟩
  · rw [rounds_of_none h]
    exact ⟨rfl, rfl⟩

theorem length_levels_le (settings : Settings) (r : ℕ) (g : CallGraph) :
    (rounds settings r g).levels.length ≤ r := by
  induction r, g using round_induction settings with
  | zero g => exact le_rfl
  | stop r g h =>
    rw [(levels_of_none h _).1]
    exact Nat.zero_le _
  | step r g a h ih =>
    rw [(rounds_of_some h r).1, List.length_cons]
    exact Nat.succ_le_succ ih

end Hierarchy

end CallCommunities
