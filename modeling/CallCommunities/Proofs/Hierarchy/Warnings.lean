import CallCommunities.Proofs.Hierarchy.Reached

/-!
# Proofs/Hierarchy/Warnings — what a run warns of

A run warns of its passes, and then of its ceiling: `warnings_rounds` splits the list there.  **The
ceiling is warned of when it was used up and the top graph can still be merged**
(`levelLimitReached_mem_iff`).  A run that stops below its ceiling stops on a graph with nothing to
merge, so in that case the ceiling does not matter (`next?_top_eq_none`).
-/

namespace CallCommunities

open Assignment CallGraph

/-- Whether a warning is about the ceiling on rounds. -/
def Warning.isLevelLimit : Warning → Bool
  | iterationLimitReached _ _ => false
  | levelLimitReached _ => true

@[simp] theorem Warning.isLevelLimit_deeper (w : Warning) (i : ℕ) :
    (w.deeper i).isLevelLimit = w.isLevelLimit := by cases w <;> rfl

namespace Hierarchy

variable {settings : Settings} {g : CallGraph} {a : Assignment} {r l depth : ℕ}

/-- The warnings about the passes of a run. -/
def roundWarnings (h : Hierarchy) : List Warning := h.warnings.filter fun w => !w.isLevelLimit

/-- The warning about a ceiling of `r` rounds, when it is due. -/
def limitWarnings (r : ℕ) (h : Hierarchy) : List Warning :=
  if h.levels.length = r
      ∧ LocalMoving.isLocalOptimum h.top.linkView (singletons h.top.vertexCount) = false then
    [.levelLimitReached r]
  else []

theorem filter_passWarnings (settings : Settings) (depth : ℕ) (g : CallGraph) :
    (passWarnings settings depth g).filter (fun w => !w.isLevelLimit)
      = passWarnings settings depth g := by
  unfold passWarnings
  split <;> rfl

theorem filter_map_deeper (l : List Warning) (i : ℕ) :
    (l.map fun w => w.deeper i).filter (fun w => !w.isLevelLimit)
      = (l.filter fun w => !w.isLevelLimit).map fun w => w.deeper i := by
  rw [List.filter_map]
  refine congrArg _ (List.filter_congr fun w _ => ?_)
  rw [Function.comp_apply, Warning.isLevelLimit_deeper]

/-- The warnings of the rounds, from the first one on. -/
theorem roundWarnings_of_some (h : next? settings g = some a) (r : ℕ) :
    (rounds settings (r + 1) g).roundWarnings = passWarnings settings 0 g
      ++ (rounds settings r (g.coarsen a).graph).roundWarnings.map fun w => w.deeper 1 := by
  rw [roundWarnings, (rounds_of_some h r).2.2, List.filter_append, filter_passWarnings,
    filter_map_deeper]
  rfl

theorem limitWarnings_of_none (h : next? settings g = none) (r : ℕ) :
    limitWarnings (r + 1) (rounds settings (r + 1) g) = [] := by
  refine if_neg fun hdue => ?_
  have hlength := hdue.1
  rw [(levels_of_none h _).1] at hlength
  exact absurd hlength.symm (Nat.succ_ne_zero r)

theorem limitWarnings_of_some (h : next? settings g = some a) (r : ℕ) :
    limitWarnings (r + 1) (rounds settings (r + 1) g)
      = (limitWarnings r (rounds settings r (g.coarsen a).graph)).map fun w => w.deeper 1 := by
  obtain ⟨hlevels, htop, -⟩ := rounds_of_some h r
  simp only [limitWarnings, hlevels, htop, List.length_cons, Nat.add_right_cancel_iff]
  split <;> rfl

/-- **The warnings of a run: of its passes, then of its ceiling.** -/
theorem warnings_rounds (settings : Settings) (r : ℕ) (g : CallGraph) :
    (rounds settings r g).warnings
      = (rounds settings r g).roundWarnings ++ limitWarnings r (rounds settings r g) := by
  induction r, g using round_induction settings with
  | zero g =>
    rw [roundWarnings, limitWarnings, rounds, climb]
    rcases LocalMoving.isLocalOptimum g.linkView (singletons g.vertexCount) with _ | _ <;> rfl
  | stop r g h =>
    rw [limitWarnings_of_none h, List.append_nil, roundWarnings, rounds_of_none h]
    exact (filter_passWarnings settings 0 g).symm
  | step r g a h ih =>
    rw [roundWarnings_of_some h, limitWarnings_of_some h, (rounds_of_some h r).2.2,
      List.append_assoc, ← List.map_append, ← ih]

theorem levelLimitReached_notMem (h : Hierarchy) : .levelLimitReached l ∉ h.roundWarnings :=
  fun hmem => absurd (List.mem_filter.mp hmem).2 Bool.false_ne_true

/-- **The ceiling is warned of when it was used up and the top graph can still be merged.** -/
theorem levelLimitReached_mem_iff (settings : Settings) (g : CallGraph) :
    .levelLimitReached l ∈ (rounds settings r g).warnings
      ↔ l = r ∧ (rounds settings r g).levels.length = r ∧ (rounds settings r g).top.Mergeable := by
  rw [warnings_rounds, List.mem_append, or_iff_right (levelLimitReached_notMem _), limitWarnings,
    List.mem_ite_nil_right, List.mem_singleton, Warning.levelLimitReached.injEq, ← Bool.not_eq_true,
    isLocalOptimum_singletons_iff, not_not]
  exact and_comm

/-! ## Runs that stop by themselves -/

/-- A graph with nothing to merge makes no round, whatever the ceiling on sweeps. -/
theorem next?_eq_none_of_not_mergeable (h : ¬ g.Mergeable) : next? settings g = none := by
  rcases Nat.eq_zero_or_pos settings.maxIterations with hk | hk
  · rw [next?_eq_none_iff, pass, hk, LocalMoving.run]
    split <;> rfl
  · exact (next?_eq_none_iff_not_mergeable hk).mpr h

/-- **Below its ceiling a run stops where no round is left.** -/
theorem next?_top_eq_none (settings : Settings) {g : CallGraph}
    (hlt : (rounds settings r g).levels.length < r) :
    next? settings (rounds settings r g).top = none := by
  induction r, g using round_induction settings with
  | zero g => exact absurd hlt (Nat.not_lt_zero _)
  | stop r g h => rwa [(levels_of_none h _).2]
  | step r g a h ih =>
    obtain ⟨hlevels, htop, -⟩ := rounds_of_some h r
    rw [hlevels, List.length_cons] at hlt
    rw [htop]
    exact ih (Nat.lt_of_succ_lt_succ hlt)

/-- **A run that does not warn of its ceiling has no round left.** -/
theorem next?_top_eq_none_of_notMem
    (h : ∀ l, .levelLimitReached l ∉ (rounds settings r g).warnings) :
    next? settings (rounds settings r g).top = none := by
  rcases (length_levels_le settings r g).lt_or_eq with hlt | heq
  · exact next?_top_eq_none settings hlt
  · refine next?_eq_none_of_not_mergeable fun hmerge => h r ?_
    exact (levelLimitReached_mem_iff settings g).mpr ⟨rfl, heq, hmerge⟩

end Hierarchy

end CallCommunities
