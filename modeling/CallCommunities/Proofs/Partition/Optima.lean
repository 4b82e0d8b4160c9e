import CallCommunities.Proofs.Partition.Plain
import CallCommunities.Proofs.Partition.Restart

/-!
# Proofs/Partition/Optima — where local moving comes to rest

Whether a partition is a local optimum is found out by a sweep, and a sweep moves vertices as it goes.  All
the same the answer is about the partition that it starts from: a sweep without moves has looked at every
vertex with that partition before it, and one that moves something has raised the score.  So it says
**whether some vertex would be better off with a neighbour** (`isLocalOptimum_iff_not_restless`), by sums
over the labels alone.

The partitions that local moving leaves as they are, under every ceiling, are exactly the local optima
(`locallyOptimal_iff_fixed`), and a run that converges ends on one.
-/

namespace CallCommunities

open Assignment

namespace CallGraph

variable {g : CallGraph} {a : Assignment} {v d : ℕ}

/-! ## Better off elsewhere -/

/-- What it would be worth to `v` to move to the community `d` as it is: `2m · e(v, d) − k · σ_d`. -/
def offer (g : CallGraph) (a : Assignment) (v d : ℕ) : ℤ :=
  2 * g.totalWeight * g.weightTo a v d - g.degree v * a.degreeSum g.degree d

/-- Whether some vertex would be better off in the community of a neighbour than where it is, where its
own degree is left out. -/
def Restless (g : CallGraph) (a : Assignment) : Prop :=
  ∃ v, v < g.vertexCount ∧ ∃ p ∈ g.incident v, g.merit a v (a.labelOf v) < g.offer a v (a.labelOf p.1)

instance (g : CallGraph) (a : Assignment) : Decidable (g.Restless a) :=
  inferInstanceAs (Decidable (∃ v, v < g.vertexCount ∧ ∃ p ∈ g.incident v, _))

theorem offer_eq (h : a.Valid g.vertexCount) (hv : v < g.vertexCount) (d : ℕ) :
    g.offer a v d = g.pull a v d - if a.labelOf v = d then (g.degree v * g.degree v : ℤ) else 0 := by
  rw [offer, weightTo_eq_reach h.1, degreeSum_eq h hv, pull_eq]
  split
  · push_cast
    ring
  · rw [Nat.add_zero, sub_zero]

/-- A vertex is not better off by joining its own community. -/
theorem offer_labelOf_le (h : a.Valid g.vertexCount) (hv : v < g.vertexCount) :
    g.offer a v (a.labelOf v) ≤ g.pull a v (a.labelOf v) := by
  rw [offer_eq h hv, if_pos rfl]
  exact sub_le_self _ (mul_self_nonneg _)

/-- **A partition is a local optimum when no vertex would be better off with a neighbour.** -/
theorem locallyOptimal_iff_not_restless (h : a.Valid g.vertexCount) :
    g.LocallyOptimal a ↔ ¬ g.Restless a := by
  constructor
  · rintro hopt ⟨v, hv, ⟨u, w⟩, hu, hlt⟩
    obtain ⟨hne, hpos, rfl⟩ := mem_incident.mp hu
    have hle := hopt v hv _ (.inr ⟨u, hne, hpos, rfl⟩)
    rw [merit_eq_pull h.1] at hlt
    by_cases hown : a.labelOf v = a.labelOf u
    · rw [← hown] at hlt
      exact absurd hlt (not_lt.mpr (offer_labelOf_le h hv))
    · rw [offer_eq h hv, if_neg hown, sub_zero] at hlt
      exact absurd hlt (not_lt.mpr hle)
  · rintro hrest v hv c (rfl | ⟨u, hne, hpos, rfl⟩)
    · exact le_rfl
    · have hu : (u, g.linkWeight v u) ∈ g.incident v := mem_incident.mpr ⟨hne, hpos, rfl⟩
      refine not_lt.mp fun hlt => hrest ⟨v, hv, _, hu, ?_⟩
      have hown : a.labelOf v ≠ a.labelOf u := fun heq => absurd (heq ▸ hlt) (lt_irrefl _)
      rwa [merit_eq_pull h.1, offer_eq h hv, if_neg hown, sub_zero]

end CallGraph

namespace LocalMoving

open CallGraph

variable {g : CallGraph} {a : Assignment} {k : ℕ}

/-! ## The sweep that finds out -/

/-- **The answer of the sweep is about the partition that it starts from.** -/
theorem isLocalOptimum_iff (h : a.Valid g.vertexCount) :
    isLocalOptimum g.linkView a = true ↔ g.LocallyOptimal a := by
  rw [isLocalOptimum, Bool.not_eq_true']
  exact not_improved_iff h Nat.one_pos

theorem isLocalOptimum_eq_false_iff (h : a.Valid g.vertexCount) :
    isLocalOptimum g.linkView a = false ↔ ¬ g.LocallyOptimal a := by
  rw [← Bool.not_eq_true, isLocalOptimum_iff h]

theorem isLocalOptimum_iff_not_restless (h : a.Valid g.vertexCount) :
    isLocalOptimum g.linkView a = true ↔ ¬ g.Restless a :=
  (isLocalOptimum_iff h).trans (locallyOptimal_iff_not_restless h)

/-! ## Fixed points -/

/-- **What local moving leaves as it is, under every ceiling, is a local optimum.**  A move would have
raised the score. -/
theorem locallyOptimal_iff_fixed (h : a.Valid g.vertexCount) :
    g.LocallyOptimal a ↔ ∀ k, (run g.linkView a k).assignment = a := by
  constructor
  · exact fun hopt k => (run_of_locallyOptimal h hopt k).1
  · intro hfixed
    refine (not_improved_iff h Nat.one_pos).mp (Bool.eq_false_iff.mpr fun himp => ?_)
    have hlt := score_lt_of_improved h himp
    rw [hfixed 1] at hlt
    exact lt_irrefl _ hlt

/-- A run does not touch a partition: it hands back the same one, without a move. -/
structure Untouched (g : CallGraph) (a : Assignment) (k : ℕ) : Prop where
  assignment_eq : (run g.linkView a k).assignment = a
  improved_eq : (run g.linkView a k).improved = false
  moves_eq : (run g.linkView a k).moves = 0

theorem untouched_of_locallyOptimal (h : a.Valid g.vertexCount) (hopt : g.LocallyOptimal a) (k : ℕ) :
    Untouched g a k := by
  obtain ⟨hassignment, hmoves, -⟩ := run_of_locallyOptimal h hopt k
  exact ⟨hassignment, decide_eq_false hmoves.not_gt, hmoves⟩

end LocalMoving

open CallGraph LocalMoving

variable {g : CallGraph} {a : Assignment}

/-- **Converged means locally optimal, and local optima are the fixed points.**  The sweep that finds out
whether a partition is a local optimum says so exactly when no vertex would be better off with a neighbour,
and exactly when local moving leaves the partition as it is under every ceiling.  A run that converges ends
on such a partition, and no run touches it again. -/
theorem local_optima (ha : a.Valid g.vertexCount) :
    (isLocalOptimum g.linkView a = true ↔ ¬ g.Restless a)
    ∧ (isLocalOptimum g.linkView a = true ↔ ∀ k, (run g.linkView a k).assignment = a)
    ∧ ∀ k, (run g.linkView a k).converged = true →
      isLocalOptimum g.linkView (run g.linkView a k).assignment = true
        ∧ ¬ g.Restless (run g.linkView a k).assignment
        ∧ ∀ l, Untouched g (run g.linkView a k).assignment l := by
  refine ⟨isLocalOptimum_iff_not_restless ha,
    (isLocalOptimum_iff ha).trans (locallyOptimal_iff_fixed ha), fun k hconverged => ?_⟩
  have hout := run_outcome (g := g) ha k
  have hopt := hout.locallyOptimal hconverged
  exact ⟨(isLocalOptimum_iff hout.valid).mpr hopt, (locallyOptimal_iff_not_restless hout.valid).mp hopt,
    untouched_of_locallyOptimal hout.valid hopt⟩

/-- Two sweeps bring the tadpole to rest, on a partition without a member of its name in any community. -/
theorem local_optima_tadpole :
    Assignment.Valid tadpole.vertexCount ⟨#[3, 3, 0, 2]⟩
    ∧ tadpole.Restless ⟨#[3, 3, 0, 2]⟩
    ∧ isLocalOptimum tadpole.linkView ⟨#[3, 3, 0, 2]⟩ = false
    ∧ (run tadpole.linkView ⟨#[3, 3, 0, 2]⟩ 2).converged = true
    ∧ isLocalOptimum tadpole.linkView ⟨#[3, 3, 3, 2]⟩ = true
    ∧ ¬ tadpole.Restless ⟨#[3, 3, 3, 2]⟩
    ∧ Untouched tadpole ⟨#[3, 3, 3, 2]⟩ 100 := by
  have hvalid : Assignment.Valid tadpole.vertexCount ⟨#[3, 3, 0, 2]⟩ := ⟨rfl, by decide +kernel⟩
  have hrest : tadpole.Restless ⟨#[3, 3, 0, 2]⟩ := by decide +kernel
  have hconverged : (run tadpole.linkView ⟨#[3, 3, 0, 2]⟩ 2).converged = true := by decide +kernel
  have hend : (run tadpole.linkView ⟨#[3, 3, 0, 2]⟩ 2).assignment = ⟨#[3, 3, 3, 2]⟩ := by
    decide +kernel
  obtain ⟨hsweep, -, hruns⟩ := local_optima hvalid
  obtain ⟨hopt, hcalm, huntouched⟩ := hruns 2 hconverged
  rw [hend] at hopt hcalm huntouched
  refine ⟨hvalid, hrest, ?_, hconverged, hopt, hcalm, huntouched 100⟩
  exact Bool.eq_false_iff.mpr fun h => hsweep.mp h hrest

end CallCommunities
