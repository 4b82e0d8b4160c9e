import CallCommunities.Proofs.Partition.Gains
import CallCommunities.Proofs.Partition.Parts

/-!
# Proofs/Partition/Splitting — what splitting gains

No calls lead from part to part inside a community, so splitting cuts no arcs, and **the weight inside
communities stays** (`internalWeight_refine`).  What it does away with are pairs: two vertices of one
community in different parts no longer count in the squared degree sums, where they counted with the
product of their degrees.  That is the whole difference (`sum_sq_eq_add_severed`), so **the score grows by
what is severed** (`score_refine`).

A vertex without calls is a part of its own and severs nothing.  The score stays exactly when no community
has two parts with calls (`severed_pos_iff`).
-/

namespace CallCommunities

open Finset Assignment

namespace CallGraph

variable {g : CallGraph} {a b : Assignment} {u v c d : ℕ}

/-! ## Pairs taken apart -/

/-- The degree products of the pairs that are together in `a` and not in `b`. -/
def severed (g : CallGraph) (a b : Assignment) : ℕ :=
  ∑ u ∈ g.vertexSet, ∑ v ∈ g.vertexSet,
    if a.labelOf u = a.labelOf v ∧ b.labelOf u ≠ b.labelOf v then g.degree u * g.degree v else 0

/-- **The squared degree sums lose what is severed and nothing else.** -/
theorem sum_sq_eq_add_severed (ha : a.Valid g.vertexCount) (hb : b.Valid g.vertexCount)
    (hm : Merges b a) : sumOver (fun s => s * s) (g.communityDegrees a)
      = sumOver (fun s => s * s) (g.communityDegrees b) + g.severed a b := by
  rw [sum_sq_communityDegrees ha, sum_sq_communityDegrees hb, severed, ← sum_add_distrib]
  refine sum_congr rfl fun u hu => ?_
  rw [← sum_add_distrib]
  refine sum_congr rfl fun v hv => ?_
  have hmerge : b.labelOf u = b.labelOf v → a.labelOf u = a.labelOf v :=
    hm.2 u v (hb.1.symm ▸ mem_vertexSet.mp hu) (hb.1.symm ▸ mem_vertexSet.mp hv)
  by_cases htogether : b.labelOf u = b.labelOf v
  · simp [htogether, hmerge htogether]
  · simp [htogether]

theorem severed_pos_iff_pair : 0 < g.severed a b ↔ ∃ u < g.vertexCount, ∃ v < g.vertexCount,
    (a.labelOf u = a.labelOf v ∧ b.labelOf u ≠ b.labelOf v) ∧ 0 < g.degree u ∧ 0 < g.degree v := by
  have hterm : ∀ (p : Prop) [Decidable p] (x y : ℕ),
      0 < (if p then x * y else 0) ↔ p ∧ 0 < x ∧ 0 < y := by
    intro p _ x y
    split <;> simp [*]
  simp only [severed, sum_pos_iff, mem_vertexSet, hterm]

/-! ## Parts of communities -/

/-- The labels of the parts that the community `c` is split into. -/
def partsOf (g : CallGraph) (a : Assignment) (c : ℕ) : Finset ℕ :=
  ((a.members c).map (a.refine g.linkView).labelOf).toFinset

theorem mem_partsOf : d ∈ g.partsOf a c
    ↔ ∃ v, (v < a.size ∧ a.labelOf v = c) ∧ (a.refine g.linkView).labelOf v = d := by
  simp only [partsOf, List.mem_toFinset, List.mem_map, mem_members]

/-- A community has a degree sum when one of its members has calls. -/
theorem degreeSum_pos_iff (hs : a.size = g.vertexCount) :
    0 < a.degreeSum g.degree c ↔ ∃ v < g.vertexCount, a.labelOf v = c ∧ 0 < g.degree v := by
  rw [degreeSum_eq_sum, hs, sum_pos_iff]
  simp only [mem_filter, mem_range, and_assoc]

/-- **Splitting severs pairs exactly when some community has two parts with calls.** -/
theorem severed_pos_iff (ha : a.Valid g.vertexCount) :
    0 < g.severed a (a.refine g.linkView) ↔ ∃ c ∈ a.identifiers, ∃ d ∈ g.partsOf a c,
      ∃ e ∈ g.partsOf a c, d ≠ e ∧ 0 < (a.refine g.linkView).degreeSum g.degree d
        ∧ 0 < (a.refine g.linkView).degreeSum g.degree e := by
  have hparts := valid_refine g a
  simp only [severed_pos_iff_pair, degreeSum_pos_iff hparts.1]
  constructor
  · rintro ⟨u, hu, v, hv, ⟨hlabel, hapart⟩, hdegree, hdegree'⟩
    have hmem : ∀ {w}, w < g.vertexCount → a.labelOf w = a.labelOf v →
        (a.refine g.linkView).labelOf w ∈ g.partsOf a (a.labelOf v) := fun hw hlabel =>
      mem_partsOf.mpr ⟨_, ⟨ha.1.symm ▸ hw, hlabel⟩, rfl⟩
    exact ⟨a.labelOf v, ha.mem_identifiers.mpr ⟨v, hv, rfl⟩, _, hmem hu hlabel, _, hmem hv rfl, hapart,
      ⟨u, hu, rfl, hdegree⟩, v, hv, rfl, hdegree'⟩
  · rintro ⟨c, -, _, hd, _, he, hapart, ⟨u, hu, rfl, hdegree⟩, v, hv, rfl, hdegree'⟩
    -- All vertices of a part are in the community that one of them is in.
    have hcommunity : ∀ {w}, w < g.vertexCount →
        (a.refine g.linkView).labelOf w ∈ g.partsOf a c → a.labelOf w = c := by
      intro w hw hmem
      obtain ⟨x, ⟨hx, rfl⟩, hpart⟩ := mem_partsOf.mp hmem
      exact (merges_refine ha).2 w x (hparts.1.symm ▸ hw) (hparts.1.symm ▸ ha.1 ▸ hx) hpart.symm
    have hlabel := (hcommunity hu hd).trans (hcommunity hv he).symm
    exact ⟨u, hu, v, hv, ⟨hlabel, hapart⟩, hdegree, hdegree'⟩

/-! ## The score -/

/-- **No arc inside a community leads from part to part.** -/
theorem internalWeight_refine (ha : a.Valid g.vertexCount) :
    g.internalWeight (a.refine g.linkView) = g.internalWeight a := by
  have hparts := (valid_refine g a).1
  have hdouble : 2 * g.internalWeight (a.refine g.linkView) = 2 * g.internalWeight a := by
    rw [two_mul_internalWeight, two_mul_internalWeight]
    refine sum_congr rfl fun u hu => sum_congr rfl fun v hv => ?_
    have hu := mem_vertexSet.mp hu
    have hv := mem_vertexSet.mp hv
    by_cases htogether : (a.refine g.linkView).labelOf u = (a.refine g.linkView).labelOf v
    · rw [if_pos htogether, if_pos ((merges_refine ha).2 u v (hparts ▸ hu) (hparts ▸ hv) htogether)]
    · rw [if_neg htogether]
      split
      · rename_i hlabel
        exact (linkWeight_eq_zero_of_parted hlabel htogether).symm
      · rfl
  omega

/-- **Splitting gains what it severs.** -/
theorem score_refine (ha : a.Valid g.vertexCount) :
    g.score (a.refine g.linkView) = g.score a + g.severed a (a.refine g.linkView) := by
  rw [score, score, internalWeight_refine ha,
    sum_sq_eq_add_severed ha (valid_refine g a) (merges_refine ha)]
  push_cast
  ring

end CallGraph

open CallGraph

/-- **Splitting never lowers the score, and raises it wherever calls are parted.**  The weight inside
communities is the same after splitting as before, and the squared degree sums do not grow, so the score
does not fall.  It rises exactly when some community has two parts whose vertices have calls. -/
theorem splitting_gains (g : CallGraph) {a : Assignment} (ha : a.Valid g.vertexCount) :
    g.internalWeight (a.refine g.linkView) = g.internalWeight a
    ∧ sumOver (fun s => s * s) (g.communityDegrees (a.refine g.linkView))
      ≤ sumOver (fun s => s * s) (g.communityDegrees a)
    ∧ g.score a ≤ g.score (a.refine g.linkView)
    ∧ (g.score a < g.score (a.refine g.linkView) ↔ ∃ c ∈ a.identifiers, ∃ d ∈ g.partsOf a c,
      ∃ e ∈ g.partsOf a c, d ≠ e ∧ 0 < (a.refine g.linkView).degreeSum g.degree d
        ∧ 0 < (a.refine g.linkView).degreeSum g.degree e) := by
  refine ⟨internalWeight_refine ha, ?_, score_le_score_refine ha, ?_⟩
  · rw [sum_sq_eq_add_severed ha (valid_refine g a) (merges_refine ha)]
    exact Nat.le_add_right _ _
  · rw [← severed_pos_iff ha, score_refine ha]
    omega

/-- A call, and a vertex without calls. -/
def CallGraph.idlePair : CallGraph := .ofArcs ⟨["b", "a", "c"], by decide⟩ [⟨0, 1, 1⟩]

/-- The tail of the tadpole has calls of its own.  A vertex without calls can be split off for nothing. -/
theorem splitting_gains_tadpole :
    Assignment.Valid tadpole.vertexCount ⟨#[3, 3, 0, 3]⟩
    ∧ (⟨#[3, 3, 0, 3]⟩ : Assignment).refine tadpole.linkView = ⟨#[1, 1, 2, 3]⟩
    ∧ tadpole.internalWeight ⟨#[1, 1, 2, 3]⟩ = tadpole.internalWeight ⟨#[3, 3, 0, 3]⟩
    ∧ tadpole.score ⟨#[3, 3, 0, 3]⟩ < tadpole.score ⟨#[1, 1, 2, 3]⟩
    ∧ Assignment.Valid idlePair.vertexCount ⟨#[2, 2, 2]⟩
    ∧ (⟨#[2, 2, 2]⟩ : Assignment).refine idlePair.linkView = ⟨#[1, 1, 2]⟩
    ∧ ¬ idlePair.score ⟨#[2, 2, 2]⟩ < idlePair.score ⟨#[1, 1, 2]⟩ := by
  have hvalid : Assignment.Valid tadpole.vertexCount ⟨#[3, 3, 0, 3]⟩ := ⟨rfl, by decide +kernel⟩
  have hidle : Assignment.Valid idlePair.vertexCount ⟨#[2, 2, 2]⟩ := ⟨rfl, by decide +kernel⟩
  have hparts : (⟨#[3, 3, 0, 3]⟩ : Assignment).refine tadpole.linkView = ⟨#[1, 1, 2, 3]⟩ := by
    decide +kernel
  have hoff : (⟨#[2, 2, 2]⟩ : Assignment).refine idlePair.linkView = ⟨#[1, 1, 2]⟩ := by
    decide +kernel
  obtain ⟨hinside, -, -, hrises⟩ := splitting_gains tadpole hvalid
  obtain ⟨-, -, -, hstays⟩ := splitting_gains idlePair hidle
  rw [hparts] at hinside hrises
  rw [hoff] at hstays
  exact ⟨hvalid, hparts, hinside, hrises.mpr (by decide +kernel), hidle, hoff,
    hstays.not.mpr (by decide +kernel)⟩

end CallCommunities
