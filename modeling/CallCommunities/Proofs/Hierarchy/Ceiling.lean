import CallCommunities.Proofs.Hierarchy.Warnings

/-!
# Proofs/Hierarchy/Ceiling — what the warning about the ceiling says

A run ends on the coarse graph of its partition, whose vertices are the communities, so a pair of
vertices that could be merged there is a pair of communities that could be merged below
(`mergeable_coarsen_iff`).  **The ceiling is warned of exactly when two communities are still better
together than apart**, and the warning is the last one.
-/

namespace CallCommunities

open Assignment CallGraph Hierarchy

/-- Whether the calls between two communities outweigh what their degrees make likely. -/
def CallGraph.WorthMerging (g : CallGraph) (a : Assignment) (c d : ℕ) : Prop :=
  a.degreeSum g.degree c * a.degreeSum g.degree d < 2 * g.totalWeight * g.weightBetween a c d

/-- Whether some two communities are worth merging. -/
def CallGraph.Improvable (g : CallGraph) (a : Assignment) : Prop :=
  ∃ c ∈ a.identifiers, ∃ d ∈ a.identifiers, c ≠ d ∧ g.WorthMerging a c d

variable {settings : Settings} {g : CallGraph} {a b : Assignment} {r c d x y : ℕ}

/-! ## Merging communities and merging coarse vertices -/

/-- **Merging is worth it when it raises the score.** -/
theorem worthMerging_iff (h : a.Valid g.vertexCount) (hc : c ∈ a.identifiers) (hcd : c ≠ d) :
    g.WorthMerging a c d ↔ g.score a < g.score (a.merge c d) := by
  obtain ⟨v, hv, rfl⟩ := h.mem_identifiers.mp hc
  rw [score_merge h (h.labelOf_lt hv) hcd, WorthMerging, ← Int.ofNat_lt]
  push_cast
  omega

/-- A coarse vertex holds the community that it stands for. -/
theorem block_eq_group (hx : x < (g.communityRoster a).size) :
    g.block a x = g.group a (g.identifierOf a x) := by
  ext v
  rw [mem_block, mem_group]
  exact and_congr_right fun hv => placeOf_eq_iff hv hx

theorem balance_coarsen_pos_iff (h : a.Valid g.vertexCount)
    (hx : x < (g.communityRoster a).size) (hy : y < (g.communityRoster a).size) :
    0 < (g.coarsen a).graph.balance x y
      ↔ g.WorthMerging a (g.identifierOf a x) (g.identifierOf a y) := by
  rw [balance_coarsen h, block_eq_group hx, block_eq_group hy, sum_balance_group h.1, sub_pos,
    WorthMerging]
  norm_cast

/-- **Two communities are worth merging when their coarse vertices are.** -/
theorem mergeable_coarsen_iff (h : a.Valid g.vertexCount) :
    (g.coarsen a).graph.Mergeable ↔ g.Improvable a := by
  have hcount := vertexCount_coarsen h
  constructor
  · rintro ⟨x, y, hx, hy, hxy, hpos⟩
    rw [hcount] at hx hy
    have hmem : ∀ z, z < (g.communityRoster a).size → g.identifierOf a z ∈ a.identifiers :=
      fun z hz => h.mem_identifiers.mpr (exists_labelOf_eq hz)
    exact ⟨_, hmem x hx, _, hmem y hy, fun heq => hxy (identifierOf_injOn hx hy heq),
      (balance_coarsen_pos_iff h hx hy).mp hpos⟩
  · rintro ⟨c, hc, d, hd, hcd, hworth⟩
    obtain ⟨u, hu, rfl⟩ := h.mem_identifiers.mp hc
    obtain ⟨v, hv, rfl⟩ := h.mem_identifiers.mp hd
    refine ⟨g.placeOf a u, g.placeOf a v, placeOf_lt_vertexCount h hu,
      placeOf_lt_vertexCount h hv, fun heq => hcd ((placeOf_eq_placeOf_iff hu hv).mp heq), ?_⟩
    rw [balance_coarsen_pos_iff h (placeOf_lt hu) (placeOf_lt hv), identifierOf_placeOf hu,
      identifierOf_placeOf hv]
    exact hworth

/-! ## The warning -/

/-- With sweeps to spend, a run that stops where something is left to merge was stopped by its
ceiling. -/
theorem length_eq_of_mergeable (hk : 0 < settings.maxIterations)
    (h : (rounds settings r g).top.Mergeable) : (rounds settings r g).levels.length = r := by
  rcases (length_levels_le settings r g).lt_or_eq with hlt | heq
  · have hnone := next?_top_eq_none settings hlt
    exact absurd h ((next?_eq_none_iff_not_mergeable hk).mp hnone)
  · exact heq

/-- What the warnings of a detection say about its partition. -/
structure LimitTells (settings : Settings) (g : CallGraph) (d : Detection) (b : Assignment) :
    Prop where
  /-- The ceiling is warned of exactly when two communities are worth merging. -/
  mem_iff : (∃ l, .levelLimitReached l ∈ d.warnings) ↔ g.Improvable b
  /-- Merging two communities that are worth it raises the exact modularity, and no other does. -/
  worthMerging_iff : ∀ c ∈ b.identifiers, ∀ d ∈ b.identifiers, c ≠ d →
    (g.WorthMerging b c d ↔ g.score b < g.score (b.merge c d))
  /-- The warning carries the number of rounds, which is the ceiling. -/
  eq_levels : ∀ l, .levelLimitReached l ∈ d.warnings → l = d.levels ∧ l = settings.maxLevels
  /-- The warning is the last one and the only one of its kind. -/
  last : ∀ l, .levelLimitReached l ∈ d.warnings →
    ∃ before, d.warnings = before ++ [.levelLimitReached l] ∧ ∀ l', .levelLimitReached l' ∉ before

/-- **The warnings of a run, for a partition whose coarse graph the run ends on.** -/
theorem limitTells_rounds (hk : 0 < settings.maxIterations) (hb : b.Valid g.vertexCount)
    {base : CallGraph}
    (htop : (rounds settings settings.maxLevels base).top = (g.coarsen b).graph) :
    LimitTells settings g (.ofHierarchy g (rounds settings settings.maxLevels base) b) b := by
  have hmem := fun l => levelLimitReached_mem_iff (l := l) (r := settings.maxLevels) settings base
  refine ⟨?_, fun c hc d _ hcd => worthMerging_iff hb hc hcd, fun l hl => ?_, fun l hl => ?_⟩
  · rw [← mergeable_coarsen_iff hb, ← htop]
    constructor
    · rintro ⟨l, hl⟩
      exact ((hmem l).mp hl).2.2
    · exact fun h => ⟨_, (hmem _).mpr ⟨rfl, length_eq_of_mergeable hk h, h⟩⟩
  · obtain ⟨rfl, hlength, -⟩ := (hmem l).mp hl
    exact ⟨hlength.symm, rfl⟩
  · obtain ⟨rfl, hlength, hmerge⟩ := (hmem l).mp hl
    have hdue : limitWarnings settings.maxLevels (rounds settings settings.maxLevels base)
        = [.levelLimitReached settings.maxLevels] := by
      refine if_pos ⟨hlength, ?_⟩
      rwa [← Bool.not_eq_true, isLocalOptimum_singletons_iff, not_not]
    refine ⟨(rounds settings settings.maxLevels base).roundWarnings, ?_,
      fun l' => levelLimitReached_notMem _⟩
    exact hdue ▸ warnings_rounds settings settings.maxLevels base

/-- **The warning about the ceiling says that two communities are still better together than
apart**, for detection from scratch and from a prior partition alike: it is there exactly when
merging some two communities raises the exact modularity, once and in the last place, and it carries
the number of rounds, which is the ceiling. -/
theorem limit_warning_exact (settings : Settings) (hk : 1 ≤ settings.maxIterations)
    (g : CallGraph) :
    (∃ b, Assignment.ofNames g (detect settings g).assignment = .ok b
      ∧ LimitTells settings g (detect settings g) b)
    ∧ ∀ (prior : SortedMap String String) (a : Assignment), Assignment.ofNames g prior = .ok a →
      ∃ d b, redetect settings g prior = .ok d ∧ Assignment.ofNames g d.assignment = .ok b
        ∧ LimitTells settings g d b := by
  refine ⟨⟨_, ofNames_detect settings g, ?_⟩, fun prior a hprior => ?_⟩
  · rw [detect_eq]
    exact limitTells_rounds hk (valid_reached settings _ g) (top_rounds settings _ g)
  · obtain ⟨c, hc, -, hd, hread⟩ := redetect_spec settings hprior
    refine ⟨_, _, hd, hread, limitTells_rounds hk (canonical_mergedFrom settings hc).valid ?_⟩
    rw [top_rounds, mergedFrom, graph_coarsen_pullBack hc.valid (valid_reached settings _ _)]

theorem limit_warning_exact_square :
    1 ≤ (Settings.default.upTo 1).maxIterations
    ∧ .levelLimitReached 1 ∈ (detect (Settings.default.upTo 1) square).warnings
    ∧ (∃ b, Assignment.ofNames square (detect (Settings.default.upTo 1) square).assignment = .ok b
      ∧ LimitTells (Settings.default.upTo 1) square (detect (Settings.default.upTo 1) square) b)
    ∧ Assignment.ofNames square (toNames square ⟨#[1, 1, 2, 3]⟩) = .ok ⟨#[1, 1, 2, 3]⟩
    ∧ ∃ d b, redetect (Settings.default.upTo 1) square (toNames square ⟨#[1, 1, 2, 3]⟩) = .ok d
      ∧ Assignment.ofNames square d.assignment = .ok b
      ∧ LimitTells (Settings.default.upTo 1) square d b := by
  have hk : 1 ≤ (Settings.default.upTo 1).maxIterations := by decide
  have hvalid : Assignment.Valid square.vertexCount ⟨#[1, 1, 2, 3]⟩ := ⟨rfl, by decide +kernel⟩
  have hprior : Assignment.ofNames square (toNames square ⟨#[1, 1, 2, 3]⟩) = .ok ⟨#[1, 1, 2, 3]⟩ :=
    ofNames_eq_ok_iff.mpr ⟨hvalid, rfl⟩
  obtain ⟨hdetect, hon⟩ := limit_warning_exact (Settings.default.upTo 1) hk square
  exact ⟨hk, by decide +kernel, hdetect, hprior, hon _ _ hprior⟩

end CallCommunities
