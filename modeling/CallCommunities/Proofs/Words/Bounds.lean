import CallCommunities.CallGraph.Builder
import CallCommunities.Proofs.Partition.Sweeps

/-!
# Proofs/Words/Bounds — how large the numbers of local moving get

With `m` the total weight, a vertex has at most `m` calls with all communities around it
(`reach_le`), and its degree and the degrees of the others are at most `2m` together
(`degree_add_otherDegrees_le`).  So a pull lies between `-4m²` and `2m²` (`pull_bounds`).  The gain is
half the difference of two scores, each within `4m²` (`abs_score_le`), whatever the number of moves:
**it never exceeds `4m²`** (`Advances.gain_le`).

For admitted graphs `m²` is at most `2 ^ 124`, so all of this and the difference of two pulls lie
strictly between `-2 ^ 127` and `2 ^ 127`.
-/

namespace CallCommunities

open Finset Assignment

/-- Strictly between the ends of words of 128 bits with a sign. -/
def InRange (x : ℤ) : Prop := -2 ^ 127 < x ∧ x < 2 ^ 127

theorem inRange_natCast {x : ℕ} (h : x ≤ 2 ^ 126) : InRange x := by
  constructor <;> omega

namespace CallGraph

variable {g : CallGraph} {a : Assignment} {u v c d : ℕ}

theorem sub_bounds {x y p q : ℕ} (hx : x ≤ p) (hy : y ≤ q) :
    -(q : ℤ) ≤ (x : ℤ) - y ∧ (x : ℤ) - y ≤ p := by
  omega

/-! ## Around one vertex -/

theorem linkWeight_le_degree (hu : u < g.vertexCount) (v : ℕ) : g.linkWeight v u ≤ g.degree v := by
  rw [degree_eq_sum]
  exact single_le_sum (f := fun u => g.linkWeight v u) (fun _ _ => Nat.zero_le _)
    (mem_vertexSet.mpr hu)

/-- **A vertex shares at most `m` calls with all others.**  Each of these calls counts in its own
degree and once more in the degree of the other end. -/
theorem reach_le (hv : v < g.vertexCount) : g.reach a v c ≤ g.totalWeight := by
  have hv := mem_vertexSet.mpr hv
  have hall : g.reach a v c ≤ ∑ u ∈ g.vertexSet.erase v, g.linkWeight v u :=
    sum_le_sum fun u _ => by split <;> omega
  have hown : ∑ u ∈ g.vertexSet.erase v, g.linkWeight v u ≤ g.degree v := by
    rw [degree_eq_sum]
    exact sum_le_sum_of_subset (erase_subset _ _)
  have hothers : ∑ u ∈ g.vertexSet.erase v, g.linkWeight v u
      ≤ ∑ u ∈ g.vertexSet.erase v, g.degree u :=
    sum_le_sum fun u _ => linkWeight_comm g v u ▸ linkWeight_le_degree (mem_vertexSet.mp hv) u
  have htotal := sum_degree g
  rw [← sum_erase_add _ _ hv] at htotal
  omega

/-- **The degrees of a vertex and of the others in a community are at most `2m` together.** -/
theorem degree_add_otherDegrees_le (hv : v < g.vertexCount) :
    g.degree v + g.otherDegrees a v c ≤ 2 * g.totalWeight := by
  have hall : g.otherDegrees a v c ≤ ∑ u ∈ g.vertexSet.erase v, g.degree u :=
    sum_le_sum fun u _ => by split <;> omega
  have htotal := sum_degree g
  rw [← sum_erase_add _ _ (mem_vertexSet.mpr hv)] at htotal
  omega

theorem degreeSum_le (ha : a.Valid g.vertexCount) (c : ℕ) :
    a.degreeSum g.degree c ≤ 2 * g.totalWeight := by
  rw [degreeSum_eq_sum, ha.1, ← sum_degree]
  exact sum_le_sum_of_subset (filter_subset _ _)

/-- What the calls with a community are worth. -/
theorem two_mul_reach_le (hv : v < g.vertexCount) :
    2 * g.totalWeight * g.reach a v c ≤ 2 * (g.totalWeight * g.totalWeight) := by
  rw [Nat.mul_assoc]
  exact Nat.mul_le_mul_left 2 (Nat.mul_le_mul_left _ (reach_le hv))

/-- What the degrees of a community take off. -/
theorem degree_mul_otherDegrees_le (hv : v < g.vertexCount) :
    g.degree v * g.otherDegrees a v c ≤ 4 * (g.totalWeight * g.totalWeight) := by
  have hle := degree_add_otherDegrees_le (a := a) (c := c) hv
  calc g.degree v * g.otherDegrees a v c
      ≤ 2 * g.totalWeight * (2 * g.totalWeight) := Nat.mul_le_mul (by omega) (by omega)
    _ = 4 * (g.totalWeight * g.totalWeight) := by ring

/-- **A pull lies between `-4m²` and `2m²`.** -/
theorem pull_bounds (hv : v < g.vertexCount) :
    -(4 * (g.totalWeight * g.totalWeight) : ℕ) ≤ g.pull a v c
      ∧ g.pull a v c ≤ (2 * (g.totalWeight * g.totalWeight) : ℕ) := by
  have hbounds := sub_bounds (two_mul_reach_le (a := a) (c := c) hv)
    (degree_mul_otherDegrees_le (a := a) (c := c) hv)
  rw [pull_eq]
  push_cast at hbounds ⊢
  exact hbounds

/-! ## Scores -/

theorem internalWeight_le (g : CallGraph) (a : Assignment) : g.internalWeight a ≤ g.totalWeight :=
  sumOver_filter_le _ _ _

/-- **A score is at most `4m²` in size.** -/
theorem abs_score_le (ha : a.Valid g.vertexCount) :
    |g.score a| ≤ (4 * (g.totalWeight * g.totalWeight) : ℕ) := by
  have hinside : 4 * g.totalWeight * g.internalWeight a ≤ 4 * (g.totalWeight * g.totalWeight) := by
    rw [Nat.mul_assoc]
    exact Nat.mul_le_mul_left 4 (Nat.mul_le_mul_left _ (internalWeight_le g a))
  have hspread : sumOver (fun s => s * s) (g.communityDegrees a)
      ≤ 4 * (g.totalWeight * g.totalWeight) := by
    calc sumOver (fun s => s * s) (g.communityDegrees a)
        ≤ ∑ u ∈ g.vertexSet, ∑ v ∈ g.vertexSet, g.degree u * g.degree v := by
          rw [sum_sq_communityDegrees ha]
          exact sum_le_sum fun u _ => sum_le_sum fun v _ => by split <;> omega
      _ = 4 * (g.totalWeight * g.totalWeight) := by
          rw [← sum_mul_sum, sum_degree]
          ring
  have hbounds := sub_bounds hinside hspread
  rw [score, abs_le]
  push_cast at hbounds ⊢
  exact hbounds

/-! ## Within 128 bits -/

variable (hm : g.totalWeight ≤ maxTotalWeight)
include hm

theorem mul_self_totalWeight_le : g.totalWeight * g.totalWeight ≤ 2 ^ 124 :=
  (Nat.mul_le_mul hm hm).trans (by decide)

/-- What the calls with a community are worth is in range. -/
theorem inRange_two_mul_reach (hv : v < g.vertexCount) :
    InRange (2 * g.totalWeight * g.reach a v c) := by
  have hmm := mul_self_totalWeight_le hm
  have hle := two_mul_reach_le (a := a) (c := c) hv
  have hrange := inRange_natCast (x := 2 * g.totalWeight * g.reach a v c) (by omega)
  exact mod_cast hrange

/-- What the degrees of a community take off is in range. -/
theorem inRange_degree_mul (hv : v < g.vertexCount) :
    InRange (g.degree v * g.otherDegrees a v c) := by
  have hmm := mul_self_totalWeight_le hm
  have hle := degree_mul_otherDegrees_le (a := a) (c := c) hv
  have hrange := inRange_natCast (x := g.degree v * g.otherDegrees a v c) (by omega)
  exact mod_cast hrange

theorem inRange_pull (hv : v < g.vertexCount) : InRange (g.pull a v c) := by
  have hmm := mul_self_totalWeight_le hm
  have hpull := pull_bounds (a := a) (c := c) hv
  constructor <;> omega

/-- **The difference of two pulls is in range**, since they are at most `6m²` apart. -/
theorem inRange_pull_sub (hv : v < g.vertexCount) : InRange (g.pull a v c - g.pull a v d) := by
  have hmm := mul_self_totalWeight_le hm
  have hc := pull_bounds (a := a) (c := c) hv
  have hd := pull_bounds (a := a) (c := d) hv
  constructor <;> omega

end CallGraph

namespace Moving

open CallGraph

variable {g : CallGraph} {a : Assignment} {s t : Moving} {v : ℕ}

/-- **The gain telescopes**: it is half the difference of two scores, whatever the number of moves. -/
theorem Advances.gain_le (h : Advances g s t) (hs : s.Sound g) (ht : t.Sound g) :
    0 ≤ t.gain - s.gain ∧ t.gain - s.gain ≤ (4 * (g.totalWeight * g.totalWeight) : ℕ) := by
  have hbefore := abs_le.mp (abs_score_le hs.valid)
  have hafter := abs_le.mp (abs_score_le ht.valid)
  have hscore := h.score_eq
  have hmoves := h.moves_le
  have hgain := h.moves_le_gain
  omega

/-- A state that local moving from a partition can come to. -/
structure Underway (g : CallGraph) (a : Assignment) (s : Moving) : Prop where
  sound : s.Sound g
  advances : Advances g (start g.linkView a) s

theorem underway_start (ha : a.Valid g.vertexCount) : Underway g a (start g.linkView a) :=
  ⟨sound_start ha, .refl g _⟩

theorem Underway.foldl_visit (h : Underway g a s) {l : List ℕ} (hl : ∀ v ∈ l, v < g.vertexCount) :
    Underway g a (l.foldl (Moving.visit g.linkView) s) :=
  ⟨(h.sound.foldl_visit hl).1, h.advances.trans (h.sound.foldl_visit hl).2⟩

/-- **The gain is in range at any time.** -/
theorem Underway.inRange_gain (h : Underway g a s) (ha : a.Valid g.vertexCount)
    (hm : g.totalWeight ≤ maxTotalWeight) : InRange s.gain := by
  have hmm := mul_self_totalWeight_le hm
  have hgain := h.advances.gain_le (sound_start ha) h.sound
  have hstart : (start g.linkView a).gain = 0 := rfl
  constructor <;> omega

end Moving

end CallCommunities
