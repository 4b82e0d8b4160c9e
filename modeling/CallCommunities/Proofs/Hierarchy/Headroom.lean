import CallCommunities.Proofs.Hierarchy.Warnings
import CallCommunities.Proofs.Partition.Restart

/-!
# Proofs/Hierarchy/Headroom — ceilings that are not reached

A run warns wherever a ceiling cut it short.  So **a run without warnings has stopped by itself**, in
every pass and at the top, and higher ceilings change nothing: a pass that converges is the same pass
under any higher ceiling on sweeps (`run_of_converged`), and rounds without warnings are the same
rounds under any higher ceilings (`climb_of_warnings_eq_nil`).

The one case where the two runs do different work is a run that ends exactly at its ceiling on rounds:
it only checks its top graph, where the run with more rounds makes a pass.
-/

namespace CallCommunities

open Assignment CallGraph

/-! ## Rounds -/

/-- Settings that split communities alike and have no lower ceilings. -/
structure Settings.Looser (settings looser : Settings) : Prop where
  refine_eq : looser.refine = settings.refine
  maxIterations_le : settings.maxIterations ≤ looser.maxIterations
  maxLevels_le : settings.maxLevels ≤ looser.maxLevels

namespace Hierarchy

variable {settings looser : Settings} {g : CallGraph} {a : Assignment} {r depth : ℕ}

theorem passWarnings_eq_nil_iff :
    passWarnings settings depth g = [] ↔ (pass settings g).converged = true := by
  unfold passWarnings
  split
  · exact iff_of_true rfl ‹_›
  · exact iff_of_false (List.cons_ne_nil _ _) ‹_›

section Looser

variable (h : settings.Looser looser)
include h

theorem pass_of_passWarnings (hw : passWarnings settings depth g = []) :
    pass looser g = pass settings g :=
  LocalMoving.run_of_converged h.maxIterations_le (passWarnings_eq_nil_iff.mp hw)

/-- A round without a warning is the same under looser settings. -/
theorem next?_of_passWarnings (hw : passWarnings settings depth g = []) :
    next? looser g = next? settings g := by
  have hsplit : partitionOf looser = partitionOf settings := by
    funext view a
    rw [partitionOf, partitionOf, h.refine_eq]
  rw [next?, next?, pass_of_passWarnings h hw, hsplit]

theorem passWarnings_of_passWarnings (hw : passWarnings settings depth g = []) :
    passWarnings looser depth g = [] := by
  rw [passWarnings_eq_nil_iff, pass_of_passWarnings h hw]
  exact passWarnings_eq_nil_iff.mp hw

/-- **Rounds without warnings are the same under higher ceilings.** -/
theorem climb_of_warnings_eq_nil (hk : 0 < settings.maxIterations) {r r' : ℕ} (hle : r ≤ r')
    {g : CallGraph} {o : Array ℕ} (hw : (climb settings r depth g o).warnings = []) :
    climb looser r' depth g o = climb settings r depth g o := by
  induction r, g using round_induction settings generalizing r' depth o with
  | zero g =>
    -- The check at the ceiling found nothing to merge, so a pass there would not either.
    have hoptimal : LocalMoving.isLocalOptimum g.linkView (singletons g.vertexCount) = true := by
      by_contra hmerge
      rw [climb, if_neg hmerge] at hw
      exact List.cons_ne_nil _ _ hw
    have hend : climb settings 0 depth g o = ⟨[], g, o, []⟩ := by rw [climb, if_pos hoptimal]
    rw [hend]
    rcases r' with _ | r'
    · exact hend
    · have hnone : next? looser g = none :=
        next?_eq_none_of_not_mergeable ((isLocalOptimum_singletons_iff g).mp hoptimal)
      rw [climb_of_none hnone, passWarnings_eq_nil (hk.trans_le h.maxIterations_le) hnone]
  | stop r g hnone =>
    obtain ⟨r', rfl⟩ := Nat.exists_eq_add_of_le' (Nat.one_le_of_lt hle)
    rw [climb_of_none hnone] at hw ⊢
    have hpass : passWarnings settings depth g = [] := hw
    rw [climb_of_none ((next?_of_passWarnings h hpass).trans hnone), hpass,
      passWarnings_of_passWarnings h hpass]
  | step r g a hsome ih =>
    obtain ⟨r', rfl⟩ := Nat.exists_eq_add_of_le' (Nat.one_le_of_lt hle)
    rw [climb_of_some hsome] at hw ⊢
    obtain ⟨hpass, hrest⟩ := List.append_eq_nil_iff.mp hw
    rw [climb_of_some ((next?_of_passWarnings h hpass).trans hsome),
      ih (Nat.le_of_succ_le_succ hle) hrest, hpass, passWarnings_of_passWarnings h hpass]

theorem ofGraph_of_warnings_eq_nil (hk : 0 < settings.maxIterations)
    (hw : (ofGraph settings g).warnings = []) : ofGraph looser g = ofGraph settings g :=
  climb_of_warnings_eq_nil h hk h.maxLevels_le hw

end Looser

end Hierarchy

open Hierarchy

/-- **A detection without warnings does not depend on its ceilings**: from scratch or from a prior
partition, higher ceilings on sweeps and rounds lead to the same detection, in its assignment, rounds,
modularity and warnings. -/
theorem detection_beyond_ceilings {settings looser : Settings} (hk : 1 ≤ settings.maxIterations)
    (h : settings.Looser looser) (g : CallGraph) :
    ((detect settings g).warnings = [] → detect looser g = detect settings g)
    ∧ ∀ (prior : SortedMap String String) (a : Assignment), Assignment.ofNames g prior = .ok a →
      ∃ d, redetect settings g prior = .ok d
        ∧ (d.warnings = [] → redetect looser g prior = .ok d) := by
  constructor
  · intro hw
    have hrun := ofGraph_of_warnings_eq_nil (g := g) h hk hw
    rw [detect, detect, hrun]
  · intro prior a hprior
    refine ⟨_, redetect_eq settings hprior, fun hw => ?_⟩
    have hrun := ofGraph_of_warnings_eq_nil h hk hw
    rw [redetect_eq looser hprior, continued, continued, mergedFrom, mergedFrom, ← flatten_rounds,
      ← flatten_rounds, ← ofGraph_eq_rounds, ← ofGraph_eq_rounds, hrun]

theorem detection_beyond_ceilings_square :
    1 ≤ (Settings.mk 3 2 true .perMethod).maxIterations
    ∧ (Settings.mk 3 2 true .perMethod).Looser .default
    ∧ (detect ⟨3, 2, true, .perMethod⟩ square).warnings = []
    ∧ detect .default square = detect ⟨3, 2, true, .perMethod⟩ square
    ∧ Assignment.ofNames square (toNames square ⟨#[1, 1, 2, 3]⟩) = .ok ⟨#[1, 1, 2, 3]⟩
    ∧ ∃ d, redetect ⟨3, 2, true, .perMethod⟩ square (toNames square ⟨#[1, 1, 2, 3]⟩) = .ok d
      ∧ d.warnings = [] ∧ redetect .default square (toNames square ⟨#[1, 1, 2, 3]⟩) = .ok d := by
  have hk : 1 ≤ (Settings.mk 3 2 true .perMethod).maxIterations := by decide
  have hlooser : (Settings.mk 3 2 true .perMethod).Looser .default :=
    ⟨rfl, by decide, by decide⟩
  have hscratch : (detect ⟨3, 2, true, .perMethod⟩ square).warnings = [] := by decide +kernel
  have hprior : Assignment.ofNames square (toNames square ⟨#[1, 1, 2, 3]⟩) = .ok ⟨#[1, 1, 2, 3]⟩ :=
    ofNames_toNames ⟨rfl, by decide +kernel⟩
  have hon : (continued ⟨3, 2, true, .perMethod⟩ square
      (canonicalize square.linkView ⟨#[1, 1, 2, 3]⟩)).warnings = [] := by decide +kernel
  obtain ⟨hsame, hgoing⟩ := detection_beyond_ceilings hk hlooser square
  obtain ⟨d, hd, hlater⟩ := hgoing _ _ hprior
  obtain rfl := Except.ok.inj (hd.symm.trans (redetect_eq _ hprior))
  exact ⟨hk, hlooser, hscratch, hsame hscratch, hprior, _, hd, hon, hlater hon⟩

end CallCommunities
