import CallCommunities.Proofs.Hierarchy.Quotients
import CallCommunities.Proofs.Partition.Optima

/-!
# Proofs/Hierarchy/SweepLimit — what the warning about the sweeps says

A run makes a pass on each of its graphs below its ceiling on rounds, and it warns of those passes that
used up their sweeps without one that moved nothing (`iterationLimitReached_mem_iff`).  A pass that ends
short of a local optimum is among them.

The warning does not look at where the pass ended, but at the last sweep: **it is there exactly when the
partition before that sweep was no local optimum** (`warned_iff`).  So when the last sweep allowed is the
one that reaches a local optimum, the warning says that there is none where there is one
(`optimum_warned_of`).
-/

namespace CallCommunities

open Assignment CallGraph LocalMoving

namespace Hierarchy

variable {settings : Settings} {g k : CallGraph} {r i s depth : ℕ}

/-! ## The passes warned of -/

theorem iterationLimitReached_mem_passWarnings :
    .iterationLimitReached i s ∈ passWarnings settings depth g
      ↔ i = depth ∧ (pass settings g).converged = false ∧ (pass settings g).sweeps = s := by
  rw [passWarnings, List.mem_ite_nil_left, List.mem_singleton, Bool.not_eq_true,
    Warning.iterationLimitReached.injEq, eq_comm (a := s)]
  exact and_left_comm

theorem iterationLimitReached_mem_map_deeper {l : List Warning} :
    Warning.iterationLimitReached i s ∈ l.map (Warning.deeper 1)
      ↔ ∃ j, j + 1 = i ∧ .iterationLimitReached j s ∈ l := by
  rw [List.mem_map]
  constructor
  · rintro ⟨⟨j, s⟩ | l, hw, heq⟩
    · cases heq
      exact ⟨j, rfl, hw⟩
    · cases heq
  · rintro ⟨j, rfl, hw⟩
    exact ⟨_, hw, rfl⟩

/-- **The warnings about the sweeps are those of the passes that did not converge**, on the graphs below
the ceiling on rounds. -/
theorem iterationLimitReached_mem_iff (settings : Settings) (g : CallGraph) :
    .iterationLimitReached i s ∈ (rounds settings r g).warnings
      ↔ i < r ∧ ∃ k, (rounds settings r g).graphs[i]? = some k
        ∧ (pass settings k).converged = false ∧ (pass settings k).sweeps = s := by
  induction r, g using round_induction settings generalizing i with
  | zero g =>
    refine iff_of_false (fun h => ?_) fun h => Nat.not_lt_zero i h.1
    rw [rounds, climb] at h
    simp only at h
    split at h
    · exact List.not_mem_nil h
    · cases List.mem_singleton.mp h
  | stop r g h =>
    rw [graphs_of_none h, rounds_of_none h, iterationLimitReached_mem_passWarnings]
    rcases i with _ | i <;> simp
  | step r g a h ih =>
    obtain ⟨-, -, hwarnings⟩ := rounds_of_some h r
    rw [hwarnings, graphs_of_some h, List.mem_append, iterationLimitReached_mem_passWarnings,
      iterationLimitReached_mem_map_deeper]
    simp only [ih]
    rcases i with _ | i <;> simp

/-! ## The last sweep -/

/-- The partition that a pass has before the last sweep that it may make. -/
def beforeLast (settings : Settings) (g : CallGraph) : Assignment :=
  (LocalMoving.run g.linkView (singletons g.vertexCount) (settings.maxIterations - 1)).assignment

/-- Whether the last sweep allowed is the one that reaches a local optimum. -/
def ReachedLast (settings : Settings) (g : CallGraph) : Prop :=
  isLocalOptimum g.linkView (beforeLast settings g) = false
    ∧ isLocalOptimum g.linkView (pass settings g).assignment = true

/-- **A pass converges when it has nothing left to do before its last sweep.** -/
theorem converged_pass_eq (hk : 1 ≤ settings.maxIterations) (g : CallGraph) :
    (pass settings g).converged = isLocalOptimum g.linkView (beforeLast settings g) := by
  have hvalid := valid_singletons g.vertexCount
  have hbefore := (run_outcome (g := g) hvalid (settings.maxIterations - 1)).valid
  rw [Bool.eq_iff_iff, beforeLast, isLocalOptimum_iff hbefore, ← converged_succ_iff hvalid, pass,
    Nat.sub_add_cancel hk]

/-- Whether a run warns of the sweeps on its graph number `i`. -/
def Warned (h : Hierarchy) (i : ℕ) : Prop := ∃ s, .iterationLimitReached i s ∈ h.warnings

theorem warned_iff_not_converged (settings : Settings) (hi : i < r)
    (hg : (rounds settings r g).graphs[i]? = some k) :
    (rounds settings r g).Warned i ↔ (pass settings k).converged = false := by
  simp only [Warned, iterationLimitReached_mem_iff, hi, hg, Option.some_inj, exists_eq_left', true_and]
  exact ⟨fun ⟨_, hconverged, _⟩ => hconverged, fun hconverged => ⟨_, hconverged, rfl⟩⟩

/-- What the warnings of a run say about the pass on its graph number `i`. -/
structure SweepsTell (settings : Settings) (h : Hierarchy) (i : ℕ) (g : CallGraph) : Prop where
  /-- The warning is there exactly when there was no local optimum before the last sweep allowed. -/
  warned_iff : h.Warned i ↔ isLocalOptimum g.linkView (beforeLast settings g) = false
  /-- A pass that ends short of a local optimum is warned of. -/
  warned_of_short : isLocalOptimum g.linkView (pass settings g).assignment = false → h.Warned i
  /-- Unless the last sweep allowed is the one that reaches a local optimum, the warning is there exactly
  when the pass ends short of one. -/
  warned_iff_short : ¬ ReachedLast settings g →
    (h.Warned i ↔ isLocalOptimum g.linkView (pass settings g).assignment = false)
  /-- If it is, the warning is there all the same; with one sweep more the pass would end on the same
  partition and converge. -/
  warned_of_reachedLast : ReachedLast settings g → h.Warned i
    ∧ LocalMoving.run g.linkView (singletons g.vertexCount) (settings.maxIterations + 1)
      = { pass settings g with sweeps := settings.maxIterations + 1, converged := true }
  /-- The warning carries the ceiling on sweeps, and its text says that there is no local optimum. -/
  message_eq : ∀ s, .iterationLimitReached i s ∈ h.warnings → s = settings.maxIterations
    ∧ (Warning.iterationLimitReached i s).message =
      s!"level {i}: no local optimum after {settings.maxIterations} sweeps, using best assignment found"

theorem graphs_zero (settings : Settings) (g : CallGraph) : (ofGraph settings g).graphs[0]? = some g :=
  getElem?_graphs settings (Nat.zero_le _)

theorem sweepsTell_rounds (hk : 1 ≤ settings.maxIterations) (hi : i < r)
    (hg : (rounds settings r g).graphs[i]? = some k) :
    SweepsTell settings (rounds settings r g) i k := by
  have hwarned := warned_iff_not_converged settings hi hg
  have hout := run_outcome (g := k) (valid_singletons k.vertexCount) settings.maxIterations
  have hshort : isLocalOptimum k.linkView (pass settings k).assignment = false
      → (pass settings k).converged = false := by
    intro hshort
    refine Bool.eq_false_iff.mpr fun hconverged => ?_
    exact (isLocalOptimum_eq_false_iff hout.valid).mp hshort (hout.locallyOptimal hconverged)
  have hlast := converged_pass_eq hk k
  refine ⟨hlast ▸ hwarned, fun h => hwarned.mpr (hshort h), fun hnot => ?_, fun hreached => ?_, ?_⟩
  · refine hwarned.trans ⟨fun hconverged => ?_, hshort⟩
    exact Bool.eq_false_iff.mpr fun hopt => hnot ⟨hlast ▸ hconverged, hopt⟩
  · have hconverged : (pass settings k).converged = false := hlast.trans hreached.1
    have hopt := (isLocalOptimum_iff hout.valid).mp hreached.2
    exact ⟨hwarned.mpr hconverged,
      run_succ_of_locallyOptimal (valid_singletons k.vertexCount) hconverged hopt⟩
  · intro s hs
    obtain ⟨-, k', hg', hconverged, rfl⟩ := (iterationLimitReached_mem_iff settings g).mp hs
    obtain rfl := Option.some.inj (hg.symm.trans hg')
    have hsweeps := sweeps_of_not_converged hconverged
    exact ⟨hsweeps, by rw [Warning.message, pass, hsweeps]⟩

end Hierarchy

open Hierarchy

/-- **What the warnings about the sweeps say.**  They are about graphs that the run makes a pass on.  For each
of these, the warning is there exactly when there was no local optimum before the last sweep that the pass
might make.  So it is there whenever the pass ends short of a local optimum, and it is there for no other
pass but one whose last sweep allowed reaches a local optimum.  Of such a pass it says what is not so. -/
theorem sweep_limit_warnings (settings : Settings) (hk : 1 ≤ settings.maxIterations) (g : CallGraph) :
    (∀ i, (ofGraph settings g).Warned i →
      i < settings.maxLevels ∧ i < (ofGraph settings g).graphs.length)
    ∧ ∀ i k, i < settings.maxLevels → (ofGraph settings g).graphs[i]? = some k →
      SweepsTell settings (ofGraph settings g) i k := by
  rw [ofGraph_eq_rounds]
  refine ⟨?_, fun i k hi hg => sweepsTell_rounds hk hi hg⟩
  rintro i ⟨s, hs⟩
  obtain ⟨hi, k, hg, -⟩ := (iterationLimitReached_mem_iff settings g).mp hs
  exact ⟨hi, (List.getElem?_eq_some_iff.mp hg).1⟩

/-- With one sweep a pass, the first pass on the trail ends short of a local optimum.  The second one reaches
a local optimum by its only sweep, and the warning is there all the same. -/
theorem sweep_limit_warnings_trail :
    1 ≤ (Settings.mk 1 32 true .perMethod).maxIterations
    ∧ 0 < (Settings.mk 1 32 true .perMethod).maxLevels
    ∧ (ofGraph ⟨1, 32, true, .perMethod⟩ trail).graphs[0]? = some trail
    ∧ isLocalOptimum trail.linkView (pass ⟨1, 32, true, .perMethod⟩ trail).assignment = false
    ∧ (ofGraph ⟨1, 32, true, .perMethod⟩ trail).Warned 0
    ∧ ∃ k, (ofGraph ⟨1, 32, true, .perMethod⟩ trail).graphs[1]? = some k
      ∧ ReachedLast ⟨1, 32, true, .perMethod⟩ k
      ∧ (ofGraph ⟨1, 32, true, .perMethod⟩ trail).Warned 1 := by
  have hk : 1 ≤ (Settings.mk 1 32 true .perMethod).maxIterations := by decide
  have hlevels : 1 < (Settings.mk 1 32 true .perMethod).maxLevels := by decide
  have hfirst := graphs_zero ⟨1, 32, true, .perMethod⟩ trail
  have hshort : isLocalOptimum trail.linkView (pass ⟨1, 32, true, .perMethod⟩ trail).assignment = false := by
    decide +kernel
  have hsecond : ((ofGraph ⟨1, 32, true, .perMethod⟩ trail).graphs[1]?.map fun k =>
      (isLocalOptimum k.linkView (beforeLast ⟨1, 32, true, .perMethod⟩ k),
        isLocalOptimum k.linkView (pass ⟨1, 32, true, .perMethod⟩ k).assignment))
      = some (false, true) := by decide +kernel
  obtain ⟨k, hget, hpair⟩ := Option.map_eq_some_iff.mp hsecond
  obtain ⟨hbefore, hafter⟩ := Prod.mk.inj hpair
  obtain ⟨-, htell⟩ := sweep_limit_warnings _ hk trail
  exact ⟨hk, by decide, hfirst, hshort, (htell 0 trail (by decide) hfirst).warned_of_short hshort,
    k, hget, ⟨hbefore, hafter⟩,
    ((htell 1 k hlevels hget).warned_of_reachedLast ⟨hbefore, hafter⟩).1⟩

/-- **The warning denies a local optimum that is there**: with two sweeps a pass, the pass on the trail ends
on a local optimum, and the warning says that there is none after two sweeps. -/
theorem optimum_warned_of :
    1 ≤ (Settings.mk 2 32 true .perMethod).maxIterations
    ∧ 0 < (Settings.mk 2 32 true .perMethod).maxLevels
    ∧ (ofGraph ⟨2, 32, true, .perMethod⟩ trail).graphs[0]? = some trail
    ∧ isLocalOptimum trail.linkView (pass ⟨2, 32, true, .perMethod⟩ trail).assignment = true
    ∧ .iterationLimitReached 0 2 ∈ (ofGraph ⟨2, 32, true, .perMethod⟩ trail).warnings
    ∧ (Warning.iterationLimitReached 0 2).message
      = "level 0: no local optimum after 2 sweeps, using best assignment found" := by
  exact ⟨by decide, by decide, graphs_zero _ _, by decide +kernel, by decide +kernel, rfl⟩

end CallCommunities
