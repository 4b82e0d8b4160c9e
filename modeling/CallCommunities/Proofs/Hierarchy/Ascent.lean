import CallCommunities.Proofs.Hierarchy.Reached

/-!
# Proofs/Hierarchy/Ascent — every round gains

The first rounds of a run, followed from the vertices, are a partition of their own
(`partitionAfter`), and it is what a run with that ceiling reaches (`sameGroups_partitionAfter`).
**Each round scores strictly more than the one before it**: a round that merges beats the singletons
of its own graph, and pulling back keeps scores, however deep the round is.

Going on from a prior partition starts at the prior's score, so it ends no lower, and no higher only
when it makes no round.
-/

namespace CallCommunities

open Assignment CallGraph

namespace Hierarchy

variable {settings : Settings} {g : CallGraph} {a : Assignment} {r i j u v : ℕ}

/-! ## The partitions on the way -/

/-- The vertex that `v` has become after the first `i` rounds. -/
def placeAfter (h : Hierarchy) (i v : ℕ) : ℕ :=
  (h.levels.take i).foldl (fun v level => level.projection.getD v v) v

/-- The partition of the first graph after the first `i` rounds: together is what has become one
vertex. -/
def partitionAfter (h : Hierarchy) (i : ℕ) : Assignment :=
  .tabulate h.base.vertexCount (h.placeAfter i)

theorem placeAfter_of_none (h : next? settings g = none) (r i v : ℕ) :
    (rounds settings r g).placeAfter i v = v := by
  rw [placeAfter, (levels_of_none h r).1, List.take_nil, List.foldl_nil]

theorem placeAfter_of_some (h : next? settings g = some a) (hv : v < g.vertexCount) (r i : ℕ) :
    (rounds settings (r + 1) g).placeAfter (i + 1) v
      = (rounds settings r (g.coarsen a).graph).placeAfter i (g.placeOf a v) := by
  rw [placeAfter, (rounds_of_some h r).1, List.take_succ_cons, List.foldl_cons, getD_projection hv]
  rfl

theorem placeAfter_lt (settings : Settings) (r i : ℕ) {g : CallGraph} (hv : v < g.vertexCount) :
    (rounds settings r g).placeAfter i v < g.vertexCount := by
  induction r, g using round_induction settings generalizing i v with
  | zero g =>
    rw [placeAfter, rounds, climb, List.take_nil]
    exact hv
  | stop r g h => rwa [placeAfter_of_none h]
  | step r g a h ih =>
    rcases i with _ | i
    · exact hv
    · have ha := valid_of_next? h
      rw [placeAfter_of_some h hv]
      refine (ih i (placeOf_lt_vertexCount ha hv)).trans_le ?_
      rw [vertexCount_coarsen ha, size_communityRoster ha]
      exact ha.communityCount_le

theorem valid_partitionAfter (settings : Settings) (r i : ℕ) (g : CallGraph) :
    ((rounds settings r g).partitionAfter i).Valid g.vertexCount := by
  rw [partitionAfter, base_rounds]
  exact valid_tabulate fun v hv => placeAfter_lt settings r i hv

theorem placeAfter_eq_iff (settings : Settings) {g : CallGraph} (hi : i ≤ r)
    (hu : u < g.vertexCount) (hv : v < g.vertexCount) :
    (rounds settings r g).placeAfter i u = (rounds settings r g).placeAfter i v
      ↔ (reached settings i g).labelOf u = (reached settings i g).labelOf v := by
  induction r, g using round_induction settings generalizing i u v with
  | zero g =>
    rw [Nat.le_zero.mp hi, reached_zero, labelOf_singletons, labelOf_singletons]
    rfl
  | stop r g h =>
    rw [placeAfter_of_none h, placeAfter_of_none h, reached_of_none h, labelOf_singletons,
      labelOf_singletons]
  | step r g a h ih =>
    rcases i with _ | i
    · rw [reached_zero, labelOf_singletons, labelOf_singletons]
      rfl
    · have ha := valid_of_next? h
      rw [placeAfter_of_some h hu, placeAfter_of_some h hv, reached_of_some h,
        labelOf_pullBack_eq_iff ha (valid_reached settings i _) hu hv]
      exact ih (Nat.le_of_succ_le_succ hi) (placeOf_lt_vertexCount ha hu)
        (placeOf_lt_vertexCount ha hv)

/-- **The first `i` rounds are the run with the ceiling `i`.** -/
theorem sameGroups_partitionAfter (settings : Settings) (g : CallGraph) (hi : i ≤ r) :
    SameGroups ((rounds settings r g).partitionAfter i) (reached settings i g) := by
  have hsize := (valid_partitionAfter settings r i g).1
  refine ⟨hsize.trans (valid_reached settings i g).1.symm, fun u v hu hv => ?_⟩
  rw [hsize] at hu hv
  rw [partitionAfter, base_rounds, labelOf_tabulate _ hu, labelOf_tabulate _ hv]
  exact placeAfter_eq_iff settings hi hu hv

/-! ## Scores -/

/-- **A round that is made gains.** -/
theorem score_reached_lt (settings : Settings) {g : CallGraph}
    (hi : i < (rounds settings r g).levels.length) :
    g.score (reached settings i g) < g.score (reached settings (i + 1) g) := by
  induction r, g using round_induction settings generalizing i with
  | zero g => exact absurd hi (Nat.not_lt_zero i)
  | stop r g h =>
    rw [(levels_of_none h _).1] at hi
    exact absurd hi (Nat.not_lt_zero i)
  | step r g a h ih =>
    have ha := valid_of_next? h
    rw [reached_of_some h, score_pullBack ha (valid_reached settings i _)]
    rcases i with _ | i
    · rw [reached_zero, reached_zero, score_coarsen_singletons ha]
      exact score_lt_of_next? h
    · rw [reached_of_some h, score_pullBack ha (valid_reached settings i _)]
      rw [(rounds_of_some h r).1, List.length_cons] at hi
      exact ih (Nat.lt_of_succ_lt_succ hi)

/-- Ceilings past the last round make no difference. -/
theorem reached_length (settings : Settings) (r : ℕ) (g : CallGraph) :
    reached settings (rounds settings r g).levels.length g = reached settings r g := by
  induction r, g using round_induction settings with
  | zero g => rfl
  | stop r g h => rw [reached_of_none h, reached_of_none h]
  | step r g a h ih =>
    rw [(rounds_of_some h r).1, List.length_cons, reached_of_some h, reached_of_some h, ih]

theorem score_reached_lt_of_lt (settings : Settings) (g : CallGraph) (hij : i < j)
    (hj : j ≤ (rounds settings r g).levels.length) :
    g.score (reached settings i g) < g.score (reached settings j g) := by
  induction j, hij using Nat.le_induction with
  | base => exact score_reached_lt settings hj
  | succ j _ ih => exact (ih (Nat.le_of_succ_le hj)).trans (score_reached_lt settings hj)

/-- **A run beats singletons when it makes a round at all.** -/
theorem score_singletons_lt_iff (settings : Settings) (r : ℕ) (g : CallGraph) :
    g.score (singletons g.vertexCount) < g.score (reached settings r g)
      ↔ (rounds settings r g).levels.length ≠ 0 := by
  rw [← reached_length settings r g, ← reached_zero settings]
  constructor
  · intro hlt hzero
    rw [hzero] at hlt
    exact lt_irrefl _ hlt
  · intro hne
    exact score_reached_lt_of_lt settings g (Nat.pos_of_ne_zero hne) le_rfl

theorem score_singletons_le (settings : Settings) (r : ℕ) (g : CallGraph) :
    g.score (singletons g.vertexCount) ≤ g.score (reached settings r g) := by
  by_cases hzero : (rounds settings r g).levels.length = 0
  · rw [← reached_length settings r g, hzero, reached_zero]
  · exact ((score_singletons_lt_iff settings r g).mpr hzero).le

end Hierarchy

/-! ## Going on from a prior partition -/

open Hierarchy

variable {g : CallGraph} {a : Assignment}

theorem score_mergedFrom (settings : Settings) (h : a.Valid g.vertexCount) :
    g.score (mergedFrom settings g a) = (g.coarsen a).graph.score
      (reached settings settings.maxLevels (g.coarsen a).graph) :=
  score_pullBack h (valid_reached settings _ _)

/-- Going on starts with the score of the prior partition. -/
theorem score_le_score_mergedFrom (settings : Settings) (h : a.Valid g.vertexCount) :
    g.score a ≤ g.score (mergedFrom settings g a) := by
  rw [score_mergedFrom settings h, ← score_coarsen_singletons h]
  exact score_singletons_le settings _ _

theorem score_lt_score_mergedFrom_iff (settings : Settings) (h : a.Valid g.vertexCount) :
    g.score a < g.score (mergedFrom settings g a)
      ↔ (rounds settings settings.maxLevels (g.coarsen a).graph).levels.length ≠ 0 := by
  rw [score_mergedFrom settings h, ← score_coarsen_singletons h]
  exact score_singletons_lt_iff settings _ _

/-- **The exact modularity rises with every round.**  The last partition is the one that detection
gives back.  Going on from a partition only merges, never loses, and gains unless no round is
made. -/
theorem score_rises (settings : Settings) (g : CallGraph) :
    (∀ i < (ofGraph settings g).levels.length,
      g.score ((ofGraph settings g).partitionAfter i)
        < g.score ((ofGraph settings g).partitionAfter (i + 1)))
    ∧ (∃ a, Assignment.ofNames g (detect settings g).assignment = .ok a
      ∧ SameGroups ((ofGraph settings g).partitionAfter (ofGraph settings g).levels.length) a
      ∧ (detect settings g).levels = (ofGraph settings g).levels.length)
    ∧ ∀ (prior : SortedMap String String) (a : Assignment), Assignment.ofNames g prior = .ok a →
      ∃ d b, redetect settings g prior = .ok d ∧ Assignment.ofNames g d.assignment = .ok b
        ∧ Merges a b ∧ g.score a ≤ g.score b ∧ (g.score a = g.score b ↔ d.levels = 0) := by
  rw [ofGraph_eq_rounds]
  refine ⟨fun i hi => ?_, ⟨_, ofNames_detect settings g, ?_, ?_⟩, fun prior a hprior => ?_⟩
  · have hle := hi.trans_le (length_levels_le settings settings.maxLevels g)
    rw [score_congr (valid_partitionAfter settings _ _ g) (valid_reached settings _ g)
        (sameGroups_partitionAfter settings g hle.le),
      score_congr (valid_partitionAfter settings _ _ g) (valid_reached settings _ g)
        (sameGroups_partitionAfter settings g hle)]
    exact score_reached_lt settings hi
  · rw [← reached_length settings settings.maxLevels g]
    exact sameGroups_partitionAfter settings g (length_levels_le settings _ g)
  · rw [detect_eq]
    rfl
  · obtain ⟨c, hc, hsame, hd, hread⟩ := redetect_spec settings hprior
    have hscore := score_congr (ofNames_eq_ok_iff.mp hprior).1 hc.valid hsame
    have hle := score_le_score_mergedFrom settings hc.valid
    have hlt := score_lt_score_mergedFrom_iff settings hc.valid
    refine ⟨_, _, hd, hread, ?_, hscore.trans_le hle, ?_⟩
    · exact hsame.merges.trans (merges_pullBack hc.valid (valid_reached settings _ _))
    · rw [hscore]
      constructor
      · intro heq
        exact not_not.mp (mt hlt.mpr heq.not_lt)
      · intro hzero
        exact hle.eq_of_not_lt fun h => hlt.mp h hzero

theorem score_rises_square :
    1 < (ofGraph .default square).levels.length
    ∧ square.score ((ofGraph .default square).partitionAfter 1)
      < square.score ((ofGraph .default square).partitionAfter 2)
    ∧ Assignment.ofNames square (toNames square ⟨#[1, 1, 2, 3]⟩) = .ok ⟨#[1, 1, 2, 3]⟩
    ∧ ∃ d b, redetect .default square (toNames square ⟨#[1, 1, 2, 3]⟩) = .ok d
      ∧ Assignment.ofNames square d.assignment = .ok b ∧ Merges ⟨#[1, 1, 2, 3]⟩ b
      ∧ square.score ⟨#[1, 1, 2, 3]⟩ ≤ square.score b
      ∧ (square.score ⟨#[1, 1, 2, 3]⟩ = square.score b ↔ d.levels = 0) := by
  have hlevels : 1 < (ofGraph .default square).levels.length := by decide +kernel
  have hvalid : Assignment.Valid square.vertexCount ⟨#[1, 1, 2, 3]⟩ := ⟨rfl, by decide +kernel⟩
  have hprior : Assignment.ofNames square (toNames square ⟨#[1, 1, 2, 3]⟩) = .ok ⟨#[1, 1, 2, 3]⟩ :=
    ofNames_eq_ok_iff.mpr ⟨hvalid, rfl⟩
  obtain ⟨hrise, -, hon⟩ := score_rises .default square
  exact ⟨hlevels, hrise 1 hlevels, hprior, hon _ _ hprior⟩

end CallCommunities
