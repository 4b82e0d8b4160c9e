import CallCommunities.Proofs.Hierarchy.Reached
import CallCommunities.Proofs.Partition.InStep

/-!
# Proofs/Hierarchy/Embedding — detection on a graph and on a copy of it

Let `h` hold a copy of `g`, with the vertices in their order.  A round on `h` merges what the round on
`g` merges, spread over `h` (`next?_spread`), and the coarse graphs embed again.  So **the runs make as
many rounds, with the same warnings, and reach a partition and its spread form** (`rounds_spread`).

Where the copy counts the same calls the modularity is the same to the last bit (`modularity_spread`):
the other vertices are communities without calls, which it leaves out, and what is left is added up in
the same order.
-/

namespace CallCommunities

open Finset Assignment CallGraph

/-! ## Rounds in step -/

namespace Hierarchy

variable {c : ℕ} {φ : ℕ → ℕ} {settings : Settings} {g h : CallGraph} {a : Assignment}

theorem partitionOf_spread (hE : Embeds c φ g h) (hc : 0 < c) (settings : Settings)
    (ha : a.Valid g.vertexCount) : partitionOf settings h.linkView (a.spread φ g h)
      = (partitionOf settings g.linkView a).spread φ g h := by
  unfold partitionOf
  split
  · exact hE.refine_spread hc ha
  · exact hE.canonicalize_spread ha

section InStep

variable (hE : Embeds c φ g h) (hφ : StrictMonoOn φ (Set.Iio g.vertexCount)) (hc : 0 < c)
include hE hφ hc

theorem agrees_pass (settings : Settings) :
    LocalMoving.Agrees ((pass settings g).spread φ g h) (pass settings h) := by
  rw [pass, pass, ← hE.spread_singletons]
  exact LocalMoving.agrees_run hE hφ hc (valid_singletons _) _

theorem improved_pass (settings : Settings) :
    (pass settings h).improved = (pass settings g).improved := by
  rw [LocalMoving.improved, (agrees_pass hE hφ hc settings).moves_eq]
  rfl

/-- **A round on the copy merges what the round merges.** -/
theorem next?_spread (settings : Settings) :
    next? settings h = (next? settings g).map (.spread φ g h) := by
  have himp := improved_pass hE hφ hc settings
  rcases hnext : next? settings g with _ | a
  · rw [Option.map_none, next?_eq_none_iff, himp]
    exact next?_eq_none_iff.mp hnext
  · obtain ⟨hmoved, rfl⟩ := next?_eq_some_iff.mp hnext
    rw [Option.map_some, next?_eq_some_iff, himp, (agrees_pass hE hφ hc settings).assignment_eq]
    exact ⟨hmoved, (partitionOf_spread hE hc settings (valid_pass settings g)).symm⟩

theorem passWarnings_spread (settings : Settings) (depth : ℕ) :
    passWarnings settings depth h = passWarnings settings depth g := by
  have hpass := agrees_pass hE hφ hc settings
  rw [passWarnings, passWarnings, hpass.converged_eq, hpass.sweeps_eq]
  rfl

theorem isLocalOptimum_spread :
    LocalMoving.isLocalOptimum h.linkView (singletons h.vertexCount)
      = LocalMoving.isLocalOptimum g.linkView (singletons g.vertexCount) := by
  have hpass := LocalMoving.agrees_run hE hφ hc (valid_singletons g.vertexCount) 1
  rw [hE.spread_singletons] at hpass
  simp only [LocalMoving.isLocalOptimum, LocalMoving.improved, hpass.moves_eq, LocalMoving.spread]

/-- **Rounds are in step on a graph and on a copy of it**: what is reached is spread, in as many rounds
and with the same warnings. -/
theorem rounds_spread (settings : Settings) (r : ℕ) :
    reached settings r h = (reached settings r g).spread φ g h
    ∧ (rounds settings r h).levels.length = (rounds settings r g).levels.length
    ∧ (rounds settings r h).warnings = (rounds settings r g).warnings := by
  induction r, g using round_induction settings generalizing φ h with
  | zero g =>
    rw [reached_zero, reached_zero, hE.spread_singletons]
    refine ⟨rfl, rfl, ?_⟩
    rw [rounds, climb, rounds, climb, isLocalOptimum_spread hE hφ hc]
  | stop r g hnone =>
    have hnone' := next?_spread hE hφ hc settings
    rw [hnone, Option.map_none] at hnone'
    rw [reached_of_none hnone, reached_of_none hnone', hE.spread_singletons, rounds_of_none hnone,
      rounds_of_none hnone', passWarnings_spread hE hφ hc]
    exact ⟨rfl, rfl, rfl⟩
  | step r g a hsome ih =>
    have hsome' := next?_spread hE hφ hc settings
    rw [hsome, Option.map_some] at hsome'
    have ha := valid_of_next? hsome
    -- The coarse graphs are a graph and a copy of it again, in places of their own.
    obtain ⟨ψ, hC⟩ := hE.exists_carries hφ ha
    obtain ⟨hreached, hlength, hwarnings⟩ :=
      ih (hC.embeds_coarsen hE ha) (hC.strictMono.strictMonoOn _)
    obtain ⟨hlevels, -, hw⟩ := rounds_of_some hsome r
    obtain ⟨hlevels', -, hw'⟩ := rounds_of_some hsome' r
    refine ⟨?_, ?_, ?_⟩
    · rw [reached_of_some hsome, reached_of_some hsome', hreached,
        hC.spread_pullBack hE ha (valid_reached settings r _)]
    · rw [hlevels, hlevels', List.length_cons, List.length_cons, hlength]
    · rw [hw, hw', hwarnings, passWarnings_spread hE hφ hc]

end InStep

end Hierarchy

/-! ## Modularity -/

namespace CallGraph

namespace Embeds

variable {c : ℕ} {φ : ℕ → ℕ} {g h : CallGraph} {a : Assignment} {d x : ℕ}
variable (hE : Embeds c φ g h) (ha : a.Valid g.vertexCount)
include hE ha

theorem internalWeight_spread : h.internalWeight (a.spread φ g h) = c * g.internalWeight a := by
  have hdouble : 2 * h.internalWeight (a.spread φ g h) = 2 * (c * g.internalWeight a) := by
    rw [Nat.mul_left_comm, two_mul_internalWeight, two_mul_internalWeight, mul_sum,
      hE.sum_vertexSet _ fun x hx => sum_eq_zero fun y _ => by rw [hE.idle x hx, ite_self]]
    refine sum_congr rfl fun u hu => ?_
    rw [mul_sum, hE.sum_vertexSet _ fun x hx => by rw [hE.idle_right hx, ite_self]]
    refine sum_congr rfl fun v hv => ?_
    rw [mul_ite_zero]
    have hu := mem_vertexSet.mp hu
    have hv := mem_vertexSet.mp hv
    exact if_congr (hE.labelOf_spread_eq_iff ha hu hv) (hE.linkWeight_eq u hu v hv) rfl
  omega

theorem degreeSum_spread (hd : d < g.vertexCount) :
    (a.spread φ g h).degreeSum h.degree (φ d) = c * a.degreeSum g.degree d := by
  rw [degreeSum_eq_sum, degreeSum_eq_sum, size_spread, ha.1, sum_filter, sum_filter, mul_sum]
  refine (hE.sum_vertexSet _ fun x hx => by rw [hE.degree_idle hx, ite_self]).trans ?_
  refine sum_congr rfl fun v hv => ?_
  have hv := mem_vertexSet.mp hv
  rw [hE.labelOf_spread a hv, hE.degree_eq hv, mul_ite_zero]
  exact if_congr (hE.apply_eq_iff (ha.labelOf_lt hv) hd) rfl rfl

/-- The communities of the other vertices have no calls. -/
theorem degreeSum_idle (hx : x ∉ g.placed φ) : (a.spread φ g h).degreeSum h.degree x = 0 := by
  rw [degreeSum_eq_sum]
  refine sum_eq_zero fun y hy => hE.degree_idle fun hmem => hx ?_
  rw [← (mem_filter.mp hy).2]
  exact (hE.labelOf_spread_mem_placed ha).mpr hmem

/-- **The degree sums that are not zero come in the same order.** -/
theorem communityDegrees_spread (hφ : StrictMonoOn φ (Set.Iio g.vertexCount)) :
    (h.communityDegrees (a.spread φ g h)).filter (0 < ·)
      = ((g.communityDegrees a).map (c * ·)).filter (0 < ·) := by
  have hplaced : ∀ x ∈ h.vertexList,
      decide (0 < (a.spread φ g h).degreeSum h.degree x)
        = (decide (0 < (a.spread φ g h).degreeSum h.degree x) && decide (x ∈ g.placed φ)) := by
    intro x _
    by_cases hx : x ∈ g.placed φ
    · simp [hx]
    · simp [hE.degreeSum_idle ha hx]
  have hcopies : (g.placed φ).map ((a.spread φ g h).degreeSum h.degree)
      = (g.communityDegrees a).map (c * ·) := by
    rw [placed, communityDegrees, degreeSums, ha.1, List.map_map, List.map_map]
    exact List.map_congr_left fun d hd => hE.degreeSum_spread ha (List.mem_range.mp hd)
  rw [← hcopies, ← hE.filter_vertexList hφ, communityDegrees, degreeSums, size_spread,
    List.filter_map, List.filter_map, List.filter_filter]
  exact congrArg _ (List.filter_congr hplaced)

end Embeds

/-- **Modularity is the same to the last bit** on a copy with the same calls. -/
theorem Embeds.modularity_spread {φ : ℕ → ℕ} {g h : CallGraph} {a : Assignment}
    (hE : Embeds 1 φ g h) (hφ : StrictMonoOn φ (Set.Iio g.vertexCount))
    (ha : a.Valid g.vertexCount) : h.modularity (a.spread φ g h) = g.modularity a := by
  have hdegrees := hE.communityDegrees_spread ha hφ
  simp only [Nat.one_mul, List.map_id'] at hdegrees
  simp only [modularity, hE.totalWeight_eq, hE.internalWeight_spread ha, Nat.one_mul, hdegrees]

end CallGraph

open Hierarchy

/-- **What detection finds on a copy is what it finds, spread.** -/
theorem CallGraph.Embeds.detect_eq {φ : ℕ → ℕ} {g h : CallGraph} (hE : Embeds 1 φ g h)
    (hφ : StrictMonoOn φ (Set.Iio g.vertexCount)) (settings : Settings) :
    detect settings h = { detect settings g with
      assignment := toNames h ((reached settings settings.maxLevels g).spread φ g h) } := by
  obtain ⟨hreached, hlength, hwarnings⟩ :=
    rounds_spread hE hφ Nat.one_pos settings settings.maxLevels
  have hmodularity := hE.modularity_spread hφ (valid_reached settings settings.maxLevels g)
  rw [CallCommunities.detect_eq, CallCommunities.detect_eq, Detection.ofHierarchy,
    Detection.ofHierarchy, hreached, hlength, hwarnings, hmodularity]

end CallCommunities
