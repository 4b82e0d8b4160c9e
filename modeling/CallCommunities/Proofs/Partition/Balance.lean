import CallCommunities.Partition.Modularity
import CallCommunities.Proofs.Partition.Groups
import Mathlib.Algebra.Order.BigOperators.Ring.Finset

/-!
# Proofs/Partition/Balance — the score of a partition, pair by pair

The **balance** of two vertices is what they add to the score when they share a community:

  `balance u v = 2m · linkWeight u v − degree u · degree v`.

The score `4m² · Q` is the balance of all pairs kept together (`score_eq_sum`), so it depends on the
groups alone (`score_congr`) and changes pair by pair: moving one vertex (`score_relabel`), merging
two communities (`score_merge`) and cutting pairs whose balance is not positive (`score_le_score`).
-/

namespace CallCommunities

open Finset Assignment

namespace CallGraph

variable {g : CallGraph} {a b : Assignment} {u v c d : ℕ}

/-! ## The score as a sum over pairs -/

/-- What two vertices add to the score when they share a community. -/
def balance (g : CallGraph) (u v : ℕ) : ℤ :=
  2 * g.totalWeight * g.linkWeight u v - g.degree u * g.degree v

theorem balance_comm (g : CallGraph) (u v : ℕ) : g.balance u v = g.balance v u := by
  rw [balance, balance, linkWeight_comm, mul_comm (g.degree u : ℤ)]

/-- Vertices that share no calls have no positive balance. -/
theorem balance_nonpos (h : g.linkWeight u v = 0) : g.balance u v ≤ 0 := by
  rw [balance, h, Nat.cast_zero, mul_zero, zero_sub, neg_nonpos]
  exact mul_nonneg (Int.natCast_nonneg _) (Int.natCast_nonneg _)

/-- The weight inside communities, counted from both ends. -/
theorem two_mul_internalWeight (g : CallGraph) (a : Assignment) :
    2 * g.internalWeight a = ∑ u ∈ g.vertexSet, ∑ v ∈ g.vertexSet,
      if a.labelOf u = a.labelOf v then g.linkWeight u v else 0 := by
  have hsum : g.internalWeight a = ∑ u ∈ g.vertexSet, ∑ v ∈ g.vertexSet,
      if a.labelOf u = a.labelOf v then g.weight u v else 0 := by
    rw [← sumOver_arcs g (fun u v w => if a.labelOf u = a.labelOf v then w else 0) (by simp)]
    rw [internalWeight, sumOver_filter]
  have hswap : g.internalWeight a = ∑ u ∈ g.vertexSet, ∑ v ∈ g.vertexSet,
      if a.labelOf u = a.labelOf v then g.weight v u else 0 := by
    rw [hsum, sum_comm]
    refine sum_congr rfl fun u _ => sum_congr rfl fun v _ => ?_
    simp only [eq_comm]
  rw [Nat.two_mul]
  nth_rewrite 1 [hsum]
  rw [hswap, ← sum_add_distrib]
  refine sum_congr rfl fun u _ => ?_
  rw [← sum_add_distrib]
  refine sum_congr rfl fun v _ => ?_
  split <;> rfl

/-- The squared degree sums of all communities, as products over the pairs kept together. -/
theorem sum_sq_communityDegrees (h : a.Valid g.vertexCount) :
    sumOver (fun s => s * s) (g.communityDegrees a) = ∑ u ∈ g.vertexSet, ∑ v ∈ g.vertexSet,
      if a.labelOf u = a.labelOf v then g.degree u * g.degree v else 0 := by
  have hmaps : ∀ u ∈ g.vertexSet, a.labelOf u ∈ range g.vertexCount := fun u hu =>
    mem_range.mpr (h.labelOf_lt (mem_vertexSet.mp hu))
  rw [communityDegrees, degreeSums, sumOver_eq_sum_map, List.map_map, sum_map_range, h.1]
  rw [← sum_fiberwise_of_maps_to hmaps]
  refine sum_congr rfl fun c _ => ?_
  rw [Function.comp_apply, degreeSum_eq_sum, h.1, sum_mul]
  refine sum_congr rfl fun u hu => ?_
  rw [← (mem_filter.mp hu).2, mul_sum, sum_filter]
  exact sum_congr rfl fun v _ => if_congr eq_comm rfl rfl

/-- **The score is the balance of all pairs kept together.** -/
theorem score_eq_sum (h : a.Valid g.vertexCount) :
    g.score a = ∑ u ∈ g.vertexSet, ∑ v ∈ g.vertexSet,
      if a.labelOf u = a.labelOf v then g.balance u v else 0 := by
  have hterm : ∀ u v, (if a.labelOf u = a.labelOf v then g.balance u v else 0)
      = 2 * g.totalWeight * ((if a.labelOf u = a.labelOf v then g.linkWeight u v else 0 : ℕ) : ℤ)
        - ((if a.labelOf u = a.labelOf v then g.degree u * g.degree v else 0 : ℕ) : ℤ) := by
    intro u v
    split <;> simp [balance]
  simp only [hterm, sum_sub_distrib, ← mul_sum, ← Nat.cast_sum]
  rw [← two_mul_internalWeight, ← sum_sq_communityDegrees h, score]
  push_cast
  ring

/-- **The score depends on the groups alone.** -/
theorem score_congr (ha : a.Valid g.vertexCount) (hb : b.Valid g.vertexCount)
    (h : SameGroups a b) : g.score a = g.score b := by
  rw [score_eq_sum ha, score_eq_sum hb]
  refine sum_congr rfl fun u hu => sum_congr rfl fun v hv => if_congr ?_ rfl rfl
  exact h.2 u v (ha.1.symm ▸ mem_vertexSet.mp hu) (ha.1.symm ▸ mem_vertexSet.mp hv)

/-- **Cutting pairs whose balance is not positive never lowers the score.** -/
theorem score_le_score (ha : a.Valid g.vertexCount) (hb : b.Valid g.vertexCount)
    (hmerge : ∀ u < g.vertexCount, ∀ v < g.vertexCount,
      b.labelOf u = b.labelOf v → a.labelOf u = a.labelOf v)
    (hcut : ∀ u < g.vertexCount, ∀ v < g.vertexCount,
      a.labelOf u = a.labelOf v → b.labelOf u ≠ b.labelOf v → g.balance u v ≤ 0) :
    g.score a ≤ g.score b := by
  rw [score_eq_sum ha, score_eq_sum hb]
  refine sum_le_sum fun u hu => sum_le_sum fun v hv => ?_
  have hu := mem_vertexSet.mp hu
  have hv := mem_vertexSet.mp hv
  by_cases hab : a.labelOf u = a.labelOf v
  · by_cases hbb : b.labelOf u = b.labelOf v
    · rw [if_pos hab, if_pos hbb]
    · rw [if_pos hab, if_neg hbb]
      exact hcut u hu v hv hab hbb
  · rw [if_neg hab, if_neg fun hbb => hab (hmerge u hu v hv hbb)]

/-! ## Moving one vertex -/

/-- The balance of `v` with the other members of the community `c`. -/
def pull (g : CallGraph) (a : Assignment) (v c : ℕ) : ℤ :=
  ∑ u ∈ g.vertexSet.erase v, if a.labelOf u = c then g.balance v u else 0

/-- The balance of the pairs that `v` has no part in. -/
def restScore (g : CallGraph) (a : Assignment) (v : ℕ) : ℤ :=
  ∑ u ∈ g.vertexSet.erase v, ∑ w ∈ g.vertexSet.erase v,
    if a.labelOf u = a.labelOf w then g.balance u w else 0

/-- The score, with the pairs of one vertex apart. -/
theorem score_eq_restScore (h : a.Valid g.vertexCount) (hv : v < g.vertexCount) :
    g.score a = g.restScore a v + 2 * g.pull a v (a.labelOf v) + g.balance v v := by
  have hv := mem_vertexSet.mpr hv
  have hrow : ∑ w ∈ g.vertexSet, (if a.labelOf v = a.labelOf w then g.balance v w else 0)
      = g.pull a v (a.labelOf v) + g.balance v v := by
    rw [← sum_erase_add _ _ hv, if_pos rfl, pull]
    simp only [eq_comm]
  have hcol : ∑ u ∈ g.vertexSet.erase v, (if a.labelOf u = a.labelOf v then g.balance u v else 0)
      = g.pull a v (a.labelOf v) :=
    sum_congr rfl fun u _ => by rw [balance_comm]
  rw [score_eq_sum h, ← sum_erase_add _ _ hv, hrow]
  have hrest : ∑ u ∈ g.vertexSet.erase v, ∑ w ∈ g.vertexSet,
      (if a.labelOf u = a.labelOf w then g.balance u w else 0)
      = g.restScore a v + g.pull a v (a.labelOf v) := by
    rw [restScore, ← hcol, ← sum_add_distrib]
    exact sum_congr rfl fun u _ => (sum_erase_add _ _ hv).symm
  rw [hrest]
  ring

theorem pull_relabel (hv : v < a.size) : g.pull (a.relabel v c) v d = g.pull a v d := by
  refine sum_congr rfl fun u hu => ?_
  rw [labelOf_relabel a hv, if_neg (ne_of_mem_erase hu)]

theorem restScore_relabel (hv : v < a.size) :
    g.restScore (a.relabel v c) v = g.restScore a v := by
  refine sum_congr rfl fun u hu => sum_congr rfl fun w hw => ?_
  rw [labelOf_relabel a hv, labelOf_relabel a hv, if_neg (ne_of_mem_erase hu),
    if_neg (ne_of_mem_erase hw)]

/-- **Moving a vertex adds twice the difference of the two pulls.** -/
theorem score_relabel (h : a.Valid g.vertexCount) (hv : v < g.vertexCount)
    (hc : c < g.vertexCount) :
    g.score (a.relabel v c) = g.score a + 2 * (g.pull a v c - g.pull a v (a.labelOf v)) := by
  have hsize : v < a.size := h.1.symm ▸ hv
  rw [score_eq_restScore (h.relabel hv hc) hv, score_eq_restScore h hv, pull_relabel hsize,
    restScore_relabel hsize, labelOf_relabel a hsize, if_pos rfl]
  ring

/-! ## Merging two communities -/

/-- The vertices of a community. -/
def group (g : CallGraph) (a : Assignment) (c : ℕ) : Finset ℕ := {v ∈ g.vertexSet | a.labelOf v = c}

theorem mem_group : v ∈ g.group a c ↔ v < g.vertexCount ∧ a.labelOf v = c := by
  rw [group, mem_filter, mem_vertexSet]

/-- The weight between two communities, in both directions. -/
def weightBetween (g : CallGraph) (a : Assignment) (c d : ℕ) : ℕ :=
  sumOver (fun u => sumOver (fun v => g.weight u v + g.weight v u) (a.members d)) (a.members c)

theorem sumOver_members (h : a.size = g.vertexCount) (f : ℕ → ℕ) (c : ℕ) :
    sumOver f (a.members c) = ∑ v ∈ g.group a c, f v := by
  rw [group, vertexSet, ← h]
  exact degreeSum_eq_sum a f c

/-- The balance between two communities. -/
theorem sum_balance_group (h : a.size = g.vertexCount) (c d : ℕ) :
    ∑ u ∈ g.group a c, ∑ v ∈ g.group a d, g.balance u v = 2 * g.totalWeight * g.weightBetween a c d
      - a.degreeSum g.degree c * a.degreeSum g.degree d := by
  rw [weightBetween, degreeSum, degreeSum, sumOver_members h, sumOver_members h,
    sumOver_members h]
  simp only [sumOver_members h, balance, sum_sub_distrib, ← mul_sum, Nat.cast_sum, sum_mul]
  rfl

/-- The pairs between two communities. -/
theorem sum_ite_labelOf (g : CallGraph) (a : Assignment) (f : ℕ → ℕ → ℤ) (c d : ℕ) :
    (∑ u ∈ g.vertexSet, ∑ v ∈ g.vertexSet,
        if a.labelOf u = c ∧ a.labelOf v = d then f u v else 0)
      = ∑ u ∈ g.group a c, ∑ v ∈ g.group a d, f u v := by
  rw [group, group, sum_filter]
  refine sum_congr rfl fun u _ => ?_
  rw [sum_filter]
  split
  · rename_i hu
    simp only [hu, true_and]
  · rename_i hu
    simp only [hu, false_and, if_false, sum_const_zero]

/-- **Merging two communities adds twice the balance between them.** -/
theorem score_merge (h : a.Valid g.vertexCount) (hc : c < g.vertexCount) (hcd : c ≠ d) :
    g.score (a.merge c d) = g.score a + 2 * (2 * g.totalWeight * g.weightBetween a c d
      - a.degreeSum g.degree c * a.degreeSum g.degree d) := by
  -- A pair is together afterwards if it was before, or if it lies between `c` and `d`.
  have hterm : ∀ u ∈ g.vertexSet, ∀ v ∈ g.vertexSet,
      (if (a.merge c d).labelOf u = (a.merge c d).labelOf v then g.balance u v else 0)
        = (if a.labelOf u = a.labelOf v then g.balance u v else 0)
          + ((if a.labelOf u = c ∧ a.labelOf v = d then g.balance u v else 0)
            + if a.labelOf u = d ∧ a.labelOf v = c then g.balance u v else 0) := by
    intro u hu v hv
    rw [labelOf_merge (h.1.symm ▸ mem_vertexSet.mp hu),
      labelOf_merge (h.1.symm ▸ mem_vertexSet.mp hv)]
    grind
  have hswap : ∑ u ∈ g.group a d, ∑ v ∈ g.group a c, g.balance u v
      = ∑ u ∈ g.group a c, ∑ v ∈ g.group a d, g.balance u v := by
    rw [sum_comm]
    simp only [balance_comm]
  rw [score_eq_sum (h.merge hc d), score_eq_sum h,
    sum_congr rfl fun u hu => sum_congr rfl (hterm u hu)]
  simp only [sum_add_distrib]
  rw [sum_ite_labelOf, sum_ite_labelOf, hswap, sum_balance_group h.1]
  ring

end CallGraph

end CallCommunities
