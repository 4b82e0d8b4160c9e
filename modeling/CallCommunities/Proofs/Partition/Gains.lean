import CallCommunities.Proofs.Partition.Sweeps

/-!
# Proofs/Partition/Gains — the gain counted is the gain in the score

A visit compares the best of its offers with staying.  When it moves the vertex, **the score rises by
exactly twice the difference** (`Sound.visit_accepted`): the local formula leaves out the loops of the
vertex and its own part in the degree sums, and both cancel.  A run is the visits of its sweeps one after
the other (`visitedFrom_run`), so the differences add up to half of what the score has gained.
-/

namespace CallCommunities

open Assignment

namespace Moving

open CallGraph

variable {g : CallGraph} {s : Moving} {v : ℕ}

/-! ## What a visit compares -/

/-- What every community around `v` is worth to it, with its degree taken off the sum of its own. -/
def appraisals (view : LinkView) (s : Moving) (v : ℕ) : List (ℕ × ℤ) :=
  (contacts view s.assignment v).map fun (c, weight) =>
    (c, worth view (view.degree v) weight
      ((s.sums.modify (s.assignment.labelOf v) (· - view.degree v)).getD c 0))

/-- What staying is worth to `v`. -/
def stay (view : LinkView) (s : Moving) (v : ℕ) : ℤ :=
  ((s.appraisals view v).lookup (s.assignment.labelOf v)).getD 0

/-- The best community for `v`, and what it is worth. -/
def best (view : LinkView) (s : Moving) (v : ℕ) : ℕ × ℤ :=
  (s.appraisals view v).foldl (prefer view) (s.assignment.labelOf v, s.stay view v)

theorem visit_eq_best (view : LinkView) (s : Moving) (v : ℕ) :
    visit view s v = if s.stay view v < (s.best view v).2 then
      { assignment := s.assignment.relabel v (s.best view v).1
        sums := (s.sums.modify (s.assignment.labelOf v) (· - view.degree v)).modify (s.best view v).1
          (· + view.degree v)
        moves := s.moves + 1
        gain := s.gain + ((s.best view v).2 - s.stay view v) }
    else s := rfl

/-- A visit that moves `v` to the best community: it counts one move and the difference to staying, and
it raises the score by exactly twice that difference. -/
structure Accepted (g : CallGraph) (s : Moving) (v : ℕ) (t : Moving) : Prop where
  stay_lt_best : s.stay g.linkView v < (s.best g.linkView v).2
  best_ne : (s.best g.linkView v).1 ≠ s.assignment.labelOf v
  assignment_eq : t.assignment = s.assignment.relabel v (s.best g.linkView v).1
  moves_eq : t.moves = s.moves + 1
  gain_eq : t.gain = s.gain + ((s.best g.linkView v).2 - s.stay g.linkView v)
  score_eq : g.score t.assignment
    = g.score s.assignment + 2 * ((s.best g.linkView v).2 - s.stay g.linkView v)

theorem Sound.appraisals_eq (h : s.Sound g) (hv : v < g.vertexCount) :
    s.appraisals g.linkView v = offers g s.assignment v := by
  rw [← h.offers_eq hv, appraisals, linkView_degree]

theorem Sound.stay_eq (h : s.Sound g) (hv : v < g.vertexCount) :
    s.stay g.linkView v = g.pull s.assignment v (s.assignment.labelOf v) := by
  rw [stay, h.appraisals_eq hv, lookup_offers, Option.getD_some]

theorem Sound.exists_best_eq (h : s.Sound g) (hv : v < g.vertexCount) :
    ∃ c, Best g s.assignment v c ∧ s.best g.linkView v = (c, g.pull s.assignment v c) := by
  obtain ⟨c, hc, hfold⟩ := exists_best h.valid hv
  exact ⟨c, hc, by rw [best, h.appraisals_eq hv, h.stay_eq hv, hfold]⟩

/-- **A visit finds nothing better than staying, or it moves the vertex and raises the score by twice
what it counts.** -/
theorem Sound.visit_accepted (h : s.Sound g) (hv : v < g.vertexCount) :
    (Moving.visit g.linkView s v = s ∧ (s.best g.linkView v).2 ≤ s.stay g.linkView v)
      ∨ Accepted g s v (Moving.visit g.linkView s v) := by
  obtain ⟨c, hc, hbest⟩ := h.exists_best_eq hv
  have hstay := h.stay_eq hv
  rcases h.visit_cases hv with ⟨hidle, hopt⟩ | ⟨d, hd, hlt, hmove⟩
  · refine .inl ⟨hidle, ?_⟩
    rw [hbest, hstay]
    exact hopt c hc.faces
  · obtain rfl := hc.unique hd h.valid hv
    have hfst : (s.best g.linkView v).1 = c := congrArg Prod.fst hbest
    have hsnd : (s.best g.linkView v).2 = g.pull s.assignment v c := congrArg Prod.snd hbest
    rw [hmove]
    refine .inr ⟨?_, ?_, ?_, rfl, ?_, ?_⟩
    · rwa [hsnd, hstay]
    · rw [hfst]
      rintro rfl
      exact lt_irrefl _ hlt
    · rw [hfst, Moving.moved]
    · rw [hsnd, hstay, Moving.moved]
    · rw [hsnd, hstay, Moving.moved]
      exact score_relabel h.valid hv (hc.faces.lt h.valid hv)

end Moving

namespace LocalMoving

open CallGraph Moving

variable {g : CallGraph} {a : Assignment}

/-! ## A run as its visits -/

/-- The vertices in the order in which a number of sweeps visits them. -/
def itinerary (view : LinkView) (sweeps : ℕ) : List ℕ :=
  (List.replicate sweeps view.vertexList).flatten

theorem foldl_itinerary_succ (view : LinkView) (n : ℕ) (s : Moving) :
    (itinerary view (n + 1)).foldl (visit view) s
      = (itinerary view n).foldl (visit view) (s.sweep view) := by
  rw [itinerary, List.replicate_succ, List.flatten_cons, List.foldl_append]
  rfl

/-- A result is that of the visits of its sweeps from a state. -/
structure VisitedFrom (view : LinkView) (s : Moving) (r : LocalMoving) : Prop where
  assignment_eq : r.assignment = ((itinerary view r.sweeps).foldl (visit view) s).assignment
  moves_eq : r.moves = ((itinerary view r.sweeps).foldl (visit view) s).moves
  gain_eq : r.gain = ((itinerary view r.sweeps).foldl (visit view) s).gain

theorem visitedFrom_sweepUpTo (view : LinkView) : ∀ (k : ℕ) (s : Moving),
    VisitedFrom view s (sweepUpTo view k s)
  | 0, _ => ⟨rfl, rfl, rfl⟩
  | k + 1, s => by
    obtain ⟨hassignment, hmoves, hgain⟩ := visitedFrom_sweepUpTo view k (s.sweep view)
    rw [sweepUpTo]
    split
    · constructor <;> rw [foldl_itinerary_succ] <;> rfl
    · constructor <;> rw [foldl_itinerary_succ]
      · exact hassignment
      · exact hmoves
      · exact hgain

/-- **A run is the visits of its sweeps, one after the other.** -/
theorem visitedFrom_run (view : LinkView) (a : Assignment) (k : ℕ) :
    VisitedFrom view (start view a) (run view a k) := by
  rw [run]
  split
  · exact ⟨rfl, rfl, rfl⟩
  · exact visitedFrom_sweepUpTo view k _

/-- **Something moved exactly when the groups have changed**, since every move raises the score. -/
theorem improved_iff_not_sameGroups (ha : a.Valid g.vertexCount) (k : ℕ) :
    (run g.linkView a k).improved = true ↔ ¬ SameGroups a (run g.linkView a k).assignment := by
  have hout := run_outcome (g := g) ha k
  constructor
  · intro himp hsame
    have hlt := score_lt_of_improved ha himp
    exact absurd (score_congr ha hout.valid hsame) hlt.ne
  · intro hgroups
    rw [improved_iff, Nat.pos_iff_ne_zero]
    intro hzero
    rw [hout.eq_of_moves_eq_zero hzero] at hgroups
    exact hgroups (.refl a)

end LocalMoving

open Moving LocalMoving

variable {g : CallGraph} {a : Assignment}

/-- **The gain counted is the gain in the score.**  After any visits a visit either changes nothing, or
moves its vertex and raises the score by exactly twice what the best community is worth above staying.
A run is the visits of its sweeps, the number behind the modularity it reports is half of what the score
has gained, and it reports an improvement exactly when the groups have changed. -/
theorem gain_exact (ha : a.Valid g.vertexCount) :
    (∀ visits : List ℕ, (∀ u ∈ visits, u < g.vertexCount) → ∀ v < g.vertexCount,
      let s := visits.foldl (visit g.linkView) (start g.linkView a)
      (visit g.linkView s v = s ∧ (s.best g.linkView v).2 ≤ s.stay g.linkView v)
        ∨ Accepted g s v (visit g.linkView s v))
    ∧ ∀ k, let r := run g.linkView a k
      VisitedFrom g.linkView (start g.linkView a) r
        ∧ r.modularityGain g.linkView = modularityOfGain r.gain g.totalWeight
        ∧ 2 * r.gain = g.score r.assignment - g.score a
        ∧ (r.improved = true ↔ ¬ SameGroups a r.assignment) := by
  refine ⟨fun visits hvisits v hv => ?_, fun k => ⟨visitedFrom_run _ a k, rfl, ?_, ?_⟩⟩
  · exact ((sound_start ha).foldl_visit hvisits).1.visit_accepted hv
  · rw [(run_outcome (g := g) ha k).score_eq]
    ring
  · exact improved_iff_not_sameGroups ha k

/-- A triangle with a tail that ends in a loop. -/
def CallGraph.tadpole : CallGraph :=
  .ofArcs ⟨["c", "a", "b", "d"], by decide⟩
    [⟨0, 1, 2⟩, ⟨1, 2, 2⟩, ⟨2, 0, 2⟩, ⟨2, 3, 2⟩, ⟨3, 2, 1⟩, ⟨3, 3, 2⟩]

open CallGraph in
/-- No community is named after one of its members here, and the third vertex joins the first two. -/
theorem gain_exact_tadpole :
    Assignment.Valid tadpole.vertexCount ⟨#[3, 3, 0, 2]⟩
    ∧ Accepted tadpole ([0, 1].foldl (visit tadpole.linkView) (start tadpole.linkView ⟨#[3, 3, 0, 2]⟩)) 2
      ([0, 1, 2].foldl (visit tadpole.linkView) (start tadpole.linkView ⟨#[3, 3, 0, 2]⟩))
    ∧ (run tadpole.linkView ⟨#[3, 3, 0, 2]⟩ 100).gain = 32
    ∧ 2 * (run tadpole.linkView ⟨#[3, 3, 0, 2]⟩ 100).gain
      = tadpole.score (run tadpole.linkView ⟨#[3, 3, 0, 2]⟩ 100).assignment
        - tadpole.score ⟨#[3, 3, 0, 2]⟩
    ∧ ¬ SameGroups ⟨#[3, 3, 0, 2]⟩ (run tadpole.linkView ⟨#[3, 3, 0, 2]⟩ 100).assignment := by
  have hvalid : Assignment.Valid tadpole.vertexCount ⟨#[3, 3, 0, 2]⟩ := ⟨rfl, by decide +kernel⟩
  have hgain : (run tadpole.linkView ⟨#[3, 3, 0, 2]⟩ 100).gain = 32 := by decide +kernel
  have himproved : (run tadpole.linkView ⟨#[3, 3, 0, 2]⟩ 100).improved = true := by decide +kernel
  obtain ⟨hvisits, hruns⟩ := gain_exact hvalid
  obtain ⟨-, -, htelescoped, hgroups⟩ := hruns 100
  refine ⟨hvalid, ?_, hgain, htelescoped, hgroups.mp himproved⟩
  exact (hvisits [0, 1] (by decide +kernel) 2 (by decide +kernel)).resolve_left fun hidle =>
    absurd hidle.1 (by decide +kernel)

end CallCommunities
