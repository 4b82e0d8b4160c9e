import CallCommunities.Proofs.Words.Moving

/-!
# Proofs/Words/Exact — no arithmetic wraps around

What is added up in words of 64 bits is exact on every admitted graph: in a builder, in the tables of the
graph and in those of a partition, and all through local moving, where taking a degree off a sum never
borrows.  The products behind a worth, the worth itself, the difference of two worths and the gain so far
stay strictly between `-2 ^ 127` and `2 ^ 127` (`arithmetic_exact`).

A limit of `2 ^ 62` calls leaves just this room: the gain stays within `4m²`, so within `2 ^ 126`, and two
worths are up to `6m²` apart.
-/

namespace CallCommunities

open Assignment CallGraph

/-! ## States and visits -/

/-- The words of a state, read back, are its numbers. -/
structure WordMoving.Holds (w : WordMoving) (s : Moving) : Prop where
  assignment_eq : w.assignment = s.assignment
  sums_eq : ∀ c, (w.sums.getD c 0).toNat = s.sums.getD c 0
  moves_eq : w.moves = s.moves
  gain_eq : w.gain.toInt = s.gain

namespace Moving

/-- The degree sums without the degree of `v`. -/
def withdrawn (view : LinkView) (s : Moving) (v : ℕ) : Array ℕ :=
  s.sums.modify (s.assignment.labelOf v) (· - view.degree v)

/-- What it is worth to `v` to be in a community, given the weight between the two. -/
def worthOf (view : LinkView) (s : Moving) (v : ℕ) (p : ℕ × ℕ) : ℤ :=
  worth view (view.degree v) p.2 ((s.withdrawn view v).getD p.1 0)

/-- The numbers that come up in the visit of `v` fit into their words. -/
structure Fits (view : LinkView) (s : Moving) (v : ℕ) : Prop where
  degree_le : view.degree v ≤ s.sums.getD (s.assignment.labelOf v) 0
  weights_eq : (WordMoving.contacts view s.assignment v).map (fun p => (p.1, p.2.toNat))
    = contacts view s.assignment v
  weight_product : ∀ p ∈ contacts view s.assignment v, InRange (2 * view.total * p.2)
  degree_product : ∀ p ∈ contacts view s.assignment v,
    InRange (view.degree v * (s.withdrawn view v).getD p.1 0)
  worth : ∀ p ∈ contacts view s.assignment v, InRange (s.worthOf view v p)
  worth_sub : ∀ p ∈ contacts view s.assignment v, ∀ q ∈ contacts view s.assignment v,
    InRange (s.worthOf view v p - s.worthOf view v q)
  gain : InRange s.gain

variable {g : CallGraph} {a : Assignment} {s : Moving} {v : ℕ}

theorem Underway.holds (h : Underway g a s) (ha : a.Valid g.vertexCount)
    (hm : g.totalWeight ≤ maxTotalWeight) : (WordMoving.encode s).Holds s := by
  refine ⟨rfl, fun c => ?_, rfl, WordMoving.toInt_gain_encode hm h ha⟩
  rw [WordMoving.encode, WordMoving.getD_map_ofNat]
  refine UInt64.toNat_ofNat_of_lt' (WordMoving.lt_size_of_le hm ?_)
  rcases lt_or_ge c g.vertexCount with hc | hc
  · rw [h.sound.getD_sums c hc]
    exact degreeSum_le h.sound.valid c
  · rw [Array.getD_eq_getD_getElem?, Array.getElem?_eq_none (h.sound.size_sums.symm ▸ hc)]
    exact Nat.zero_le _

/-- **A visit on the way fits into words.** -/
theorem Underway.fits (h : Underway g a s) (ha : a.Valid g.vertexCount)
    (hm : g.totalWeight ≤ maxTotalWeight) (hv : v < g.vertexCount) : s.Fits g.linkView v := by
  have hother : ∀ p ∈ contacts g.linkView s.assignment v,
      (s.withdrawn g.linkView v).getD p.1 0 = g.otherDegrees s.assignment v p.1 := fun p hp => by
    have hfaces := mem_contacts.mp (List.mem_map.mpr ⟨p, hp, rfl⟩)
    rw [withdrawn, linkView_degree, h.sound.getD_others hv (hfaces.lt h.sound.valid hv)]
  have hreach : ∀ p ∈ contacts g.linkView s.assignment v, p.2 = g.reach s.assignment v p.1 :=
    fun p hp => eq_reach_of_mem_contacts hp
  have hworth : ∀ p ∈ contacts g.linkView s.assignment v,
      s.worthOf g.linkView v p = g.pull s.assignment v p.1 := fun p hp => by
    rw [worthOf, hother p hp, linkView_degree, hreach p hp, worth_eq_pull]
  refine ⟨?_, ?_, fun p hp => ?_, fun p hp => ?_, fun p hp => ?_, fun p hp q hq => ?_,
    h.inRange_gain ha hm⟩
  · rw [linkView_degree, h.sound.getD_sums _ (h.sound.valid.labelOf_lt hv),
      degreeSum_eq h.sound.valid hv, if_pos rfl]
    exact Nat.le_add_left _ _
  · rw [WordMoving.contacts_eq, List.map_map]
    refine (List.map_congr_left fun p hp => ?_).trans (List.map_id _)
    have hle : p.2 ≤ 2 * g.totalWeight := by
      rw [hreach p hp]
      exact (reach_le hv).trans (by omega)
    exact Prod.ext rfl (UInt64.toNat_ofNat_of_lt' (WordMoving.lt_size_of_le hm hle))
  · rw [linkView_total, hreach p hp]
    exact inRange_two_mul_reach hm hv
  · rw [linkView_degree, hother p hp]
    exact inRange_degree_mul hm hv
  · rw [hworth p hp]
    exact inRange_pull hm hv
  · rw [hworth p hp, hworth q hq]
    exact inRange_pull_sub hm hv

end Moving

namespace CallGraph

variable {g : CallGraph} {a : Assignment}

/-! ## Graphs and partitions -/

/-- The tables of a graph, added up in words, hold its numbers. -/
structure TablesFit (g : CallGraph) : Prop where
  totalWeight_le : g.totalWeight ≤ maxTotalWeight
  total : Posts g.totalLedger fun _ => g.totalWeight
  degrees : Posts g.degreeLedger g.degree
  loops : Posts g.loopLedger g.loopWeight
  links : Posts g.linkLedger fun p => if p.1 = p.2 then 0 else g.linkWeight p.1 p.2

/-- What is added up for a partition holds its numbers, and so does local moving from it at any
time. -/
structure PartitionFits (g : CallGraph) (a : Assignment) : Prop where
  merged : Posts (g.mergedLedger a) fun p => (g.coarsen a).graph.weight p.1 p.2
  sums : Posts (a.communityLedger g.degree) (a.degreeSum g.degree)
  inside : Posts (g.insideLedger a) fun _ => g.internalWeight a
  run_eq : ∀ k, WordMoving.run g.linkView a k = LocalMoving.run g.linkView a k
  holds : ∀ visits : List ℕ, (∀ v ∈ visits, v < g.vertexCount) →
    (visits.foldl (WordMoving.visit g.linkView) (.start g.linkView a)).Holds
      (visits.foldl (Moving.visit g.linkView) (.start g.linkView a))
  sums_eq : ∀ visits : List ℕ, (∀ v ∈ visits, v < g.vertexCount) → ∀ c < g.vertexCount,
    ((visits.foldl (WordMoving.visit g.linkView) (.start g.linkView a)).sums.getD c 0).toNat
      = (visits.foldl (Moving.visit g.linkView) (.start g.linkView a)).assignment.degreeSum g.degree c
  fits : ∀ visits : List ℕ, (∀ v ∈ visits, v < g.vertexCount) → ∀ v < g.vertexCount,
    (visits.foldl (Moving.visit g.linkView) (.start g.linkView a)).Fits g.linkView v

theorem tablesFit (hm : g.totalWeight ≤ maxTotalWeight) : g.TablesFit where
  totalWeight_le := hm
  total := posts_totalLedger hm
  degrees := posts_degreeLedger hm
  loops := posts_loopLedger hm
  links := posts_linkLedger hm

theorem holds_foldl_visit (hm : g.totalWeight ≤ maxTotalWeight) (ha : a.Valid g.vertexCount)
    {visits : List ℕ} (hvisits : ∀ v ∈ visits, v < g.vertexCount) :
    (visits.foldl (WordMoving.visit g.linkView) (.start g.linkView a)).Holds
      (visits.foldl (Moving.visit g.linkView) (.start g.linkView a)) := by
  have hstart := Moving.underway_start ha
  rw [WordMoving.start_eq, WordMoving.foldl_visit_encode hm hstart.sound hvisits]
  exact (hstart.foldl_visit hvisits).holds ha hm

theorem partitionFits (hm : g.totalWeight ≤ maxTotalWeight) (ha : a.Valid g.vertexCount) :
    g.PartitionFits a where
  merged := posts_mergedLedger hm ha
  sums := posts_communityLedger hm ha
  inside := posts_insideLedger hm a
  run_eq := WordMoving.run_eq hm ha
  holds _ hvisits := holds_foldl_visit hm ha hvisits
  sums_eq _ hvisits c hc :=
    ((holds_foldl_visit hm ha hvisits).sums_eq c).trans
      (((Moving.underway_start ha).foldl_visit hvisits).sound.getD_sums c hc)
  fits _ hvisits _ hv := ((Moving.underway_start ha).foldl_visit hvisits).fits ha hm hv

end CallGraph

/-- **No arithmetic wraps around.**  Whatever a builder accepts, and whatever is merged from it in any
number of steps, the sums of weights and degrees come out exact in 64 bits, for the graph and for every
valid partition of it.  Local moving from that partition is exact at any time: after any visits its words
are its numbers and its sums are the degree sums of the communities of that moment, and in the next visit
no sum borrows and everything in 128 bits is strictly between `-2 ^ 127` and `2 ^ 127`. -/
theorem arithmetic_exact :
    (∀ (b : Builder) (g : CallGraph), b.build = .ok g →
      Posts b.totalLedger (fun _ => g.totalWeight)
        ∧ Posts b.weightLedger fun p => g.weight p.1 p.2)
    ∧ ∀ g : CallGraph, g.Admitted →
      g.TablesFit ∧ ∀ a : Assignment, a.Valid g.vertexCount → g.PartitionFits a :=
  ⟨fun _ _ hg => Builder.posts_ledgers hg,
    fun _ hg => ⟨tablesFit hg.totalWeight_le, fun _ ha => partitionFits hg.totalWeight_le ha⟩⟩

/-- A builder that has heard of as many calls as a graph may have. -/
def Builder.brimful : Builder :=
  (Builder.empty false .perMethod).observeAll
    [⟨"a", "b", 2 ^ 61⟩, ⟨"b", "c", 2 ^ 60⟩, ⟨"c", "c", 2 ^ 60⟩]

theorem arithmetic_exact_brimful :
    Builder.brimful.build = .ok Builder.brimful.graph
    ∧ Builder.brimful.graph.totalWeight = maxTotalWeight
    ∧ (post Builder.brimful.weightLedger (0, 1)).toNat = 2 ^ 61
    ∧ Builder.brimful.graph.Admitted ∧ (singletons 3).Valid Builder.brimful.graph.vertexCount
    ∧ (post Builder.brimful.graph.degreeLedger 2).toNat = 3 * 2 ^ 60
    ∧ (WordMoving.run Builder.brimful.graph.linkView (singletons 3) 5).gain = 5 * 2 ^ 121
    ∧ (Builder.brimful.graph.coarsen ⟨#[1, 1, 2]⟩).graph.TablesFit := by
  obtain ⟨hbuilt, hadmitted⟩ := arithmetic_exact
  have hbuild : Builder.brimful.build = .ok Builder.brimful.graph :=
    Builder.build_eq_ok_iff.mpr ⟨by decide +kernel, rfl⟩
  have hsingletons : (singletons 3).Valid Builder.brimful.graph.vertexCount :=
    valid_singletons 3
  have hmerged : (⟨#[1, 1, 2]⟩ : Assignment).Valid Builder.brimful.graph.vertexCount :=
    ⟨by decide +kernel, by decide +kernel⟩
  have hfull : Builder.brimful.graph.totalWeight = maxTotalWeight := by decide +kernel
  have hweight : Builder.brimful.graph.weight 0 1 = 2 ^ 61 := by decide +kernel
  have hdegree : Builder.brimful.graph.degree 2 = 3 * 2 ^ 60 := by decide +kernel
  have hgain : (LocalMoving.run Builder.brimful.graph.linkView (singletons 3) 5).gain = 5 * 2 ^ 121 := by
    decide +kernel
  obtain ⟨htables, hparts⟩ := hadmitted _ (.built hbuild)
  refine ⟨hbuild, hfull, ((hbuilt _ _ hbuild).2.eq (0, 1)).trans hweight, .built hbuild, hsingletons,
    (htables.degrees.eq 2).trans hdegree, ?_, (hadmitted _ (.coarsened (.built hbuild) hmerged)).1⟩
  rw [(hparts _ hsingletons).run_eq, hgain]

end CallCommunities
