import CallCommunities.Proofs.Graph.Built
import CallCommunities.Proofs.Hierarchy.Embedding

/-!
# Proofs/Hierarchy/Resemblance — what detection sees of a graph

Of a graph, detection uses the number of its vertices, the order of their names, and the calls between
two vertices in both directions together.  It uses the calls only to compare, and every comparison is
between numbers of one degree: two worths, say, are both quadratic in the calls.  So a graph `h`
**resembles** `g` when all this agrees with `c` times the calls (`Resembles`): it is a copy of `g` with
every vertex in its own place (`Resembles.embeds`), and the rounds of the two are in step.  Two things
follow for what is written down, where the names are the same too.

* **Directions are not seen** (`detection_undirected`).  Here the factor is one, so the modularity
  agrees as well; and of the observations behind a graph, only how many calls they count between two
  names matters, not their order, directions or how the counts are split.
* **The unit of counting is not seen** (`detection_of_multiples`).  The modularity is in doubles, and
  is the one field that this says nothing about.
-/

namespace CallCommunities

open Assignment CallGraph Hierarchy

/-! ## Graphs that resemble each other -/

/-- Whether `h` has the vertices of `g`, with names in the same order, and between any two of them `c`
times the calls, in whatever direction. -/
structure CallGraph.Resembles (c : ℕ) (g h : CallGraph) : Prop where
  vertexCount_eq : h.vertexCount = g.vertexCount
  rank_le_iff : ∀ u < g.vertexCount, ∀ v < g.vertexCount,
    (h.rank u ≤ h.rank v ↔ g.rank u ≤ g.rank v)
  linkWeight_eq : ∀ u v, h.linkWeight u v = c * g.linkWeight u v

variable {c : ℕ} {settings : Settings} {g h : CallGraph} {a : Assignment}

namespace CallGraph

/-- Graphs with the same names and, but for the factor, the same calls in both directions. -/
theorem resembles_of_vertices_eq (hv : h.vertices = g.vertices)
    (hw : ∀ u v, h.linkWeight u v = c * g.linkWeight u v) : Resembles c g h where
  vertexCount_eq := congrArg Roster.size hv
  rank_le_iff u _ v _ := by
    have hrank : ∀ x, h.rank x = g.rank x := fun x => by simp only [rank, name, hv]
    rw [hrank, hrank]
  linkWeight_eq := hw

namespace Resembles

variable (hR : Resembles c g h)
include hR

/-- **Every vertex is a copy of itself.** -/
theorem embeds : Embeds c id g h where
  lt v hv := hR.vertexCount_eq.symm ▸ hv
  rank_le_iff := hR.rank_le_iff
  linkWeight_eq u _ v _ := hR.linkWeight_eq u v
  idle x hx y := by
    have hge : g.vertexCount ≤ x := not_lt.mp fun hlt => hx (mem_placed_of_lt hlt)
    rw [hR.linkWeight_eq, linkWeight_comm, linkWeight_eq_zero hge, Nat.mul_zero]

/-- A partition is its own spread form. -/
theorem spread_id (hs : a.size = g.vertexCount) : a.spread id g h = a :=
  (hR.embeds.eq_spread (hs.trans hR.vertexCount_eq.symm) (fun _ _ => rfl) fun _ hlt hx =>
    absurd (mem_placed_of_lt (hR.vertexCount_eq ▸ hlt)) hx).symm

theorem totalWeight_eq : h.totalWeight = c * g.totalWeight := hR.embeds.totalWeight_eq

end Resembles

/-- Where the calls are counted alike, detection differs in the names at most. -/
theorem Resembles.detect_eq (hR : Resembles 1 g h) (settings : Settings) :
    detect settings h = { detect settings g with
      assignment := toNames h (reached settings settings.maxLevels g) } := by
  rw [hR.embeds.detect_eq strictMonoOn_id, hR.spread_id (valid_reached settings _ g).1]

end CallGraph

/-- **Rounds are in step on graphs that resemble each other**: the same partition is reached in as
many rounds, with the same warnings. -/
theorem Hierarchy.rounds_in_step (hR : Resembles c g h) (hc : 0 < c) (settings : Settings) (r : ℕ) :
    reached settings r h = reached settings r g
    ∧ (rounds settings r h).levels.length = (rounds settings r g).levels.length
    ∧ (rounds settings r h).warnings = (rounds settings r g).warnings := by
  have hrounds := rounds_spread hR.embeds strictMonoOn_id hc settings r
  rwa [hR.spread_id (valid_reached settings r g).1] at hrounds

theorem Assignment.toNames_congr (hv : h.vertices = g.vertices) (a : Assignment) :
    toNames h a = toNames g a := by
  simp only [toNames, vertexList, vertexCount, name, hv]

/-! ## Without directions -/

/-- Graphs with the same names and the same calls in both directions lead to one detection. -/
theorem detect_congr (settings : Settings) (hv : h.vertices = g.vertices)
    (hw : ∀ u v, h.linkWeight u v = g.linkWeight u v) : detect settings h = detect settings g := by
  have hR : Resembles 1 g h :=
    resembles_of_vertices_eq hv fun u v => by rw [hw, Nat.one_mul]
  rw [hR.detect_eq, toNames_congr hv, ← assignment_detect]

/-- Builders with the same vertices and the same calls in both directions are accepted or refused alike,
and lead to one detection. -/
theorem detect_build_congr (settings : Settings) {b b' : Builder} (hv : b'.vertices = b.vertices)
    (hw : ∀ u v, b'.graph.linkWeight u v = b.graph.linkWeight u v) :
    b'.build.map (detect settings) = b.build.map (detect settings) := by
  have hR : Resembles 1 b.graph b'.graph :=
    resembles_of_vertices_eq hv fun u v => by rw [hw, Nat.one_mul]
  have htotal : sumOver Arc.weight b'.kept = sumOver Arc.weight b.kept := by
    rw [← Builder.totalWeight_graph, hR.totalWeight_eq, Nat.one_mul, Builder.totalWeight_graph]
  rw [Builder.build, Builder.build, htotal]
  split
  · rfl
  · exact congrArg Except.ok (detect_congr settings hv hw)

/-- **Detection sees a graph without directions.**  Two graphs with the same names in the same order,
the same loops, and for any two vertices the same calls in both directions together lead to the same
detection.  So once the vertices are declared, two lists of observations that count the same number of
calls between any two of them, in whatever order, directions and portions, are accepted or refused alike
and lead to the same detection. -/
theorem detection_undirected (settings : Settings) :
    (∀ g h : CallGraph, h.vertices = g.vertices →
      (∀ v < g.vertexCount, h.loopWeight v = g.loopWeight v) →
      (∀ u < g.vertexCount, ∀ v < g.vertexCount, u ≠ v →
        h.weight u v + h.weight v u = g.weight u v + g.weight v u) →
      detect settings h = detect settings g)
    ∧ ∀ (b : Builder) (l l' : List Observation), b.Knows l → b.Knows l' →
      (∀ s ∈ b.vertices.items, ∀ t ∈ b.vertices.items,
        callsBetween b.granularity l' s t = callsBetween b.granularity l s t) →
      (b.observeAll l').build.map (detect settings)
        = (b.observeAll l).build.map (detect settings) := by
  constructor
  · intro g h hv hloop hpair
    refine detect_congr settings hv (linkWeight_ext (congrArg Roster.size hv) fun u hu v hv => ?_)
    rcases eq_or_ne u v with rfl | hne
    · exact congrArg (fun w => w + w) (hloop u hu)
    · exact hpair u hu v hv hne
  · intro b l l' hl hl' hcalls
    have hvertices := Builder.vertices_observeAll hl
    have hvertices' := Builder.vertices_observeAll hl'
    have hsame := hvertices'.trans hvertices.symm
    refine detect_build_congr settings hsame (Builder.linkWeight_graph_congr hsame fun s hs t ht => ?_)
    rw [hvertices] at hs ht
    rw [Builder.calls_observeAll, Builder.calls_observeAll, callsJoining_append, callsJoining_append]
    exact congrArg _ (hcalls s hs t ht)

/-- The square with its calls turned around and dealt out anew, and two declared names with calls told
in two ways.  The calls with a third name are left out by a closed builder, however many they are. -/
theorem detection_undirected_square :
    detect .default (.ofArcs square.vertices [⟨1, 0, 1⟩, ⟨3, 2, 2⟩, ⟨0, 2, 1⟩, ⟨2, 0, 1⟩, ⟨3, 1, 2⟩,
      ⟨0, 1, 1⟩, ⟨0, 3, 1⟩, ⟨2, 1, 1⟩]) = detect .default square
    ∧ (((Builder.empty true .perMethod).declare "a").declare "b").Knows
        [⟨"a", "b", 2⟩, ⟨"b", "b", 1⟩, ⟨"a", "c", 3⟩]
    ∧ ((((Builder.empty true .perMethod).declare "a").declare "b").observeAll
        [⟨"b", "a", 1⟩, ⟨"c", "a", 7⟩, ⟨"a", "b", 1⟩, ⟨"b", "b", 1⟩]).build.map (detect .default)
      = ((((Builder.empty true .perMethod).declare "a").declare "b").observeAll
        [⟨"a", "b", 2⟩, ⟨"b", "b", 1⟩, ⟨"a", "c", 3⟩]).build.map (detect .default) := by
  obtain ⟨hgraphs, hlists⟩ := detection_undirected .default
  exact ⟨hgraphs _ _ rfl (by decide +kernel) (by decide +kernel), .inl rfl,
    hlists _ _ _ (.inl rfl) (.inl rfl) (by decide +kernel)⟩

/-! ## In another unit -/

/-- **Detection does not see the unit of counting.**  If the calls that a builder is told of are all
multiplied by `c`, and there are not too many of them then, a graph is built again, and detection finds
the same communities on it, in as many rounds and with the same warnings. -/
theorem detection_of_multiples (settings : Settings) (isClosed : Bool) (granularity : Granularity)
    (mentions : List Mention) {g : CallGraph} {c : ℕ}
    (hg : ((Builder.empty isClosed granularity).takeAll mentions).build = .ok g) (hc : 1 ≤ c)
    (hm : c * g.totalWeight ≤ maxTotalWeight) :
    ∃ h, ((Builder.empty isClosed granularity).takeAll (mentions.map (.times c))).build = .ok h
      ∧ h.totalWeight = c * g.totalWeight
      ∧ (detect settings h).assignment = (detect settings g).assignment
      ∧ (detect settings h).levels = (detect settings g).levels
      ∧ (detect settings h).warnings = (detect settings g).warnings := by
  obtain ⟨-, rfl⟩ := Builder.build_eq_ok_iff.mp hg
  set b := (Builder.empty isClosed granularity).takeAll mentions
  have htold : (Builder.empty isClosed granularity).takeAll (mentions.map (.times c))
      = b.times c := by
    rw [← Builder.takeAll_times hc, Builder.times_empty]
  have hR : Resembles c b.graph (b.times c).graph :=
    resembles_of_vertices_eq rfl fun u v => by
      rw [linkWeight, Builder.weight_graph_times, Builder.weight_graph_times, ← Nat.mul_add]
      rfl
  have hbuild : (b.times c).build = .ok (b.times c).graph := by
    refine Builder.build_eq_ok_iff.mpr ⟨?_, rfl⟩
    rwa [Builder.sum_kept_times, ← Builder.totalWeight_graph]
  obtain ⟨hreached, hlength, hwarnings⟩ := rounds_in_step hR hc settings settings.maxLevels
  refine ⟨_, htold ▸ hbuild, hR.totalWeight_eq, ?_⟩
  rw [detect_eq, detect_eq, Detection.ofHierarchy, Detection.ofHierarchy, hreached]
  exact ⟨toNames_congr rfl _, hlength, hwarnings⟩

theorem detection_of_multiples_three :
    ∃ g h, ((Builder.empty false .perMethod).takeAll [.declare "d", .observe ⟨"a", "b", 2⟩,
        .observe ⟨"b", "c", -1⟩, .observe ⟨"c", "a", 1⟩]).build = .ok g
      ∧ ((Builder.empty false .perMethod).takeAll [.declare "d", .observe ⟨"a", "b", 6⟩,
        .observe ⟨"b", "c", -1⟩, .observe ⟨"c", "a", 3⟩]).build = .ok h
      ∧ 1 ≤ 3 ∧ 3 * g.totalWeight ≤ maxTotalWeight
      ∧ (detect .default h).assignment = (detect .default g).assignment
      ∧ (detect .default h).levels = (detect .default g).levels
      ∧ (detect .default h).warnings = (detect .default g).warnings := by
  have hg : ((Builder.empty false .perMethod).takeAll [.declare "d", .observe ⟨"a", "b", 2⟩,
      .observe ⟨"b", "c", -1⟩, .observe ⟨"c", "a", 1⟩]).build
      = .ok ((Builder.empty false .perMethod).takeAll [.declare "d", .observe ⟨"a", "b", 2⟩,
      .observe ⟨"b", "c", -1⟩, .observe ⟨"c", "a", 1⟩]).graph :=
    Builder.build_eq_ok_iff.mpr ⟨by decide +kernel, rfl⟩
  have hm : 3 * ((Builder.empty false .perMethod).takeAll [.declare "d", .observe ⟨"a", "b", 2⟩,
      .observe ⟨"b", "c", -1⟩, .observe ⟨"c", "a", 1⟩]).graph.totalWeight ≤ maxTotalWeight := by
    decide +kernel
  obtain ⟨h, hbuild, -, hsame⟩ := detection_of_multiples .default false .perMethod _ hg
    (by decide : 1 ≤ 3) hm
  exact ⟨_, h, hg, hbuild, by decide, hm, hsame⟩

end CallCommunities
