import CallCommunities.Proofs.Hierarchy.Ascent
import CallCommunities.Proofs.Hierarchy.Warnings

/-!
# Proofs/Hierarchy/Quotients — the graphs that a run goes through

The first `i` rounds of a run are the run with the ceiling `i` (`levels_take`), tables of names
included (`originAfter_rounds`).  So what is known about where a run ends holds of every graph on its
way: **each is the coarse graph of the first one**, by the partition that follows the vertices up to
it (`graphs_are_quotients`).

A round that moves anything merges two vertices at least, so **the graphs shrink**
(`rounds_shrink`), and there are fewer rounds than vertices.
-/

namespace CallCommunities

open Assignment CallGraph

namespace Hierarchy

variable {settings : Settings} {g k : CallGraph} {a : Assignment} {r i v : ℕ}

/-! ## The graphs of a run -/

/-- The graphs of a hierarchy, from the first one to the top. -/
def graphs (h : Hierarchy) : List CallGraph := h.levels.map Level.graph ++ [h.top]

/-- The graphs begin with the one of the first round. -/
theorem exists_graphs_eq_cons (h : Hierarchy) : ∃ rest, h.graphs = h.base :: rest := by
  unfold graphs base
  rcases h.levels with _ | ⟨level, levels⟩
  · exact ⟨[], rfl⟩
  · exact ⟨levels.map Level.graph ++ [h.top], rfl⟩

theorem graphs_of_none (h : next? settings g = none) (r : ℕ) :
    (rounds settings r g).graphs = [g] := by
  rw [graphs, (levels_of_none h r).1, (levels_of_none h r).2]
  rfl

theorem graphs_of_some (h : next? settings g = some a) (r : ℕ) :
    (rounds settings (r + 1) g).graphs
      = g :: (rounds settings r (g.coarsen a).graph).graphs := by
  obtain ⟨hlevels, htop, -⟩ := rounds_of_some h r
  rw [graphs, hlevels, htop]
  rfl

/-! ## Every round shrinks the graph -/

/-- **A round leaves fewer vertices.** -/
theorem vertexCount_coarsen_lt (h : next? settings g = some a) :
    (g.coarsen a).graph.vertexCount < g.vertexCount := by
  obtain ⟨himp, rfl⟩ := next?_eq_some_iff.mp h
  have hvalid := valid_of_next? h
  rw [vertexCount_coarsen hvalid, size_communityRoster hvalid]
  exact communityCount_partitionOf_lt himp

/-- **From graph to graph the vertices become fewer.** -/
theorem pairwise_graphs (settings : Settings) (r : ℕ) (g : CallGraph) :
    (rounds settings r g).graphs.Pairwise fun k l => l.vertexCount < k.vertexCount := by
  induction r, g using round_induction settings with
  | zero g => exact List.pairwise_singleton _ g
  | stop r g h =>
    rw [graphs_of_none h]
    exact List.pairwise_singleton _ g
  | step r g a h ih =>
    obtain ⟨rest, hrest⟩ := exists_graphs_eq_cons (rounds settings r (g.coarsen a).graph)
    rw [base_rounds] at hrest
    rw [graphs_of_some h, hrest]
    rw [hrest] at ih
    have hlt := vertexCount_coarsen_lt h
    refine List.pairwise_cons.mpr ⟨fun k hk => ?_, ih⟩
    rcases List.mem_cons.mp hk with rfl | hk
    · exact hlt
    · exact ((List.pairwise_cons.mp ih).1 k hk).trans hlt

/-- **There are fewer rounds than vertices**, whatever the ceiling. -/
theorem length_levels_lt (settings : Settings) (r : ℕ) {g : CallGraph} (hg : 0 < g.vertexCount) :
    (rounds settings r g).levels.length < g.vertexCount := by
  induction r, g using round_induction settings with
  | zero g => exact hg
  | stop r g h => rwa [(levels_of_none h _).1]
  | step r g a h ih =>
    have hcoarse := placeOf_lt_vertexCount (valid_of_next? h) hg
    rw [(rounds_of_some h r).1, List.length_cons]
    exact (Nat.succ_le_of_lt (ih (Nat.zero_lt_of_lt hcoarse))).trans_lt (vertexCount_coarsen_lt h)

/-! ## The first rounds of a run -/

/-- **The first rounds of a run are the run with a lower ceiling.** -/
theorem levels_take (settings : Settings) {g : CallGraph} (hi : i ≤ r) :
    (rounds settings i g).levels = (rounds settings r g).levels.take i := by
  induction r, g using round_induction settings generalizing i with
  | zero g =>
    rw [Nat.le_zero.mp hi]
    rfl
  | stop r g h => rw [(levels_of_none h _).1, (levels_of_none h _).1, List.take_nil]
  | step r g a h ih =>
    rcases i with _ | i
    · rfl
    · rw [(rounds_of_some h i).1, (rounds_of_some h r).1, List.take_succ_cons,
        ih (Nat.le_of_succ_le_succ hi)]

/-- The graph that the first `i` rounds end on. -/
theorem getElem?_graphs (settings : Settings) {g : CallGraph}
    (hi : i ≤ (rounds settings r g).levels.length) :
    (rounds settings r g).graphs[i]? = some (rounds settings i g).top := by
  induction r, g using round_induction settings generalizing i with
  | zero g =>
    rw [Nat.le_zero.mp hi]
    rfl
  | stop r g h =>
    rw [(levels_of_none h _).1] at hi
    rw [graphs_of_none h, Nat.le_zero.mp hi]
    rfl
  | step r g a h ih =>
    rw [graphs_of_some h]
    rcases i with _ | i
    · rfl
    · rw [(rounds_of_some h r).1, List.length_cons] at hi
      rw [List.getElem?_cons_succ, ih (Nat.le_of_succ_le_succ hi), (rounds_of_some h i).2.1]

/-- The table of names after the first `i` rounds: each of them looks the identifiers of its
communities up in the table before it. -/
def originAfter (h : Hierarchy) (i : ℕ) : Array ℕ :=
  (h.levels.take i).foldl (fun origin level => lift level.graph level.assignment origin)
    h.base.vertexList.toArray

/-- The partition of the first graph after the first `i` rounds: each vertex belongs to the vertex
that what it has become is named after. -/
def assignmentAfter (h : Hierarchy) (i : ℕ) : Assignment :=
  .tabulate h.base.vertexCount fun v => (h.originAfter i).getD (h.placeAfter i v) v

/-- The table of names of a run is the one that its rounds make, one after the other. -/
theorem origin_climb (settings : Settings) (r depth : ℕ) (g : CallGraph) (o : Array ℕ) :
    (climb settings r depth g o).origin = (climb settings r depth g o).levels.foldl
      (fun origin level => lift level.graph level.assignment origin) o := by
  induction r, g using round_induction settings generalizing depth o with
  | zero g => rfl
  | stop r g h =>
    rw [climb_of_none h]
    rfl
  | step r g a h ih =>
    rw [climb_of_some h]
    exact ih (depth + 1) (lift g a o)

theorem originAfter_rounds (settings : Settings) (g : CallGraph) (hi : i ≤ r) :
    (rounds settings r g).originAfter i = (rounds settings i g).origin := by
  rw [originAfter, ← levels_take settings hi, base_rounds]
  exact (origin_climb settings i 0 g _).symm

theorem placeAfter_rounds (settings : Settings) (g : CallGraph) (hi : i ≤ r) (v : ℕ) :
    (rounds settings r g).placeAfter i v = (rounds settings i g).topOf v := by
  rw [placeAfter, ← levels_take settings hi]
  rfl

/-- **After `i` rounds the tables describe what a run with the ceiling `i` reaches.** -/
theorem assignmentAfter_rounds (settings : Settings) (g : CallGraph) (hi : i ≤ r) :
    (rounds settings r g).assignmentAfter i = reached settings i g := by
  rw [← flatten_rounds, flatten, assignmentAfter, base_rounds, base_rounds,
    originAfter_rounds settings g hi]
  simp only [placeAfter_rounds settings g hi]

/-- **The graph after `i` rounds is the coarse graph of the first one**, by the partition after `i`
rounds. -/
theorem graph_coarsen_assignmentAfter (settings : Settings) {g : CallGraph}
    (hk : (rounds settings r g).graphs[i]? = some k) :
    (g.coarsen ((rounds settings r g).assignmentAfter i)).graph = k := by
  have hlen : i ≤ (rounds settings r g).levels.length := by
    have hlt := (List.getElem?_eq_some_iff.mp hk).1
    rw [graphs, List.length_append, List.length_map] at hlt
    exact Nat.le_of_lt_succ hlt
  rw [getElem?_graphs settings hlen, Option.some_inj] at hk
  rw [assignmentAfter_rounds settings g (hlen.trans (length_levels_le settings r g)),
    ← top_rounds, hk]

theorem assignmentAfter_length (settings : Settings) (r : ℕ) (g : CallGraph) :
    (rounds settings r g).assignmentAfter (rounds settings r g).levels.length
      = (rounds settings r g).flatten := by
  rw [assignmentAfter_rounds settings g (length_levels_le settings r g), reached_length,
    flatten_rounds]

end Hierarchy

open Hierarchy

/-- **Every round shrinks the graph.**  Whatever graph a round starts from, if local moving from
singletons moves anything, then the partition that is merged has fewer communities than the graph has
vertices.  So a run that stops below its ceiling stops because nothing moved, the graphs from the
first one to the top have fewer and fewer vertices, and there are fewer rounds than vertices. -/
theorem rounds_shrink (settings : Settings) (g : CallGraph) :
    (∀ k : CallGraph, (pass settings k).improved = true →
      (partitionOf settings k.linkView (pass settings k).assignment).communityCount
        < k.vertexCount)
    ∧ ((ofGraph settings g).levels.length < settings.maxLevels →
      (pass settings (ofGraph settings g).top).improved = false)
    ∧ ((ofGraph settings g).graphs.Pairwise fun k l => l.vertexCount < k.vertexCount)
    ∧ (1 ≤ g.vertexCount → (ofGraph settings g).levels.length ≤ g.vertexCount - 1) := by
  refine ⟨fun k himp => communityCount_partitionOf_lt himp, fun hlt => ?_,
    pairwise_graphs settings _ g, fun hg => ?_⟩
  · exact next?_eq_none_iff.mp (next?_top_eq_none settings hlt)
  · exact Nat.le_sub_one_of_lt (length_levels_lt settings _ hg)

theorem rounds_shrink_square :
    ((pass .default square).improved = true
      ∧ (partitionOf .default square.linkView (pass .default square).assignment).communityCount
        < square.vertexCount)
    ∧ ((ofGraph .default square).levels.length < Settings.default.maxLevels
      ∧ (pass .default (ofGraph .default square).top).improved = false)
    ∧ 1 ≤ square.vertexCount
      ∧ (ofGraph .default square).levels.length ≤ square.vertexCount - 1 := by
  have himp : (pass .default square).improved = true := by decide +kernel
  have hlt : (ofGraph .default square).levels.length < Settings.default.maxLevels := by
    decide +kernel
  have hcount : 1 ≤ square.vertexCount := by decide +kernel
  obtain ⟨hmerge, hstop, -, hbound⟩ := rounds_shrink .default square
  exact ⟨⟨himp, hmerge _ himp⟩, ⟨hlt, hstop hlt⟩, hcount, hbound hcount⟩

/-- **Every graph on the way is the exact coarse graph of the first one**, by the partition that
follows the vertices of the first graph up to it: the two are equal, with the same names in the same
order, ranks, arcs, degrees, loops and total weight.  The last of these partitions is the one read
off the tables, so coarsening by it gives the top graph, and it has as many communities as the top
graph has vertices. -/
theorem graphs_are_quotients (settings : Settings) (g : CallGraph) :
    (∀ i k, (ofGraph settings g).graphs[i]? = some k →
      (g.coarsen? ((ofGraph settings g).assignmentAfter i)).map Coarsening.graph = .ok k)
    ∧ (ofGraph settings g).assignmentAfter (ofGraph settings g).levels.length
      = (ofGraph settings g).flatten
    ∧ (g.coarsen? (ofGraph settings g).flatten).map Coarsening.graph
      = .ok (ofGraph settings g).top
    ∧ (ofGraph settings g).flatten.communityCount = (ofGraph settings g).top.vertexCount := by
  have hvalid := valid_reached settings settings.maxLevels g
  rw [ofGraph_eq_rounds]
  refine ⟨fun i k hk => ?_, assignmentAfter_length settings _ g, ?_, ?_⟩
  · have hsize : ((rounds settings settings.maxLevels g).assignmentAfter i).size = g.vertexCount :=
      (size_tabulate _ _).trans (congrArg vertexCount (base_rounds settings _ g))
    rw [coarsen?_eq hsize, Except.map, graph_coarsen_assignmentAfter settings hk]
  · rw [flatten_rounds, coarsen?_eq hvalid.1, Except.map, top_rounds]
  · rw [flatten_rounds, top_rounds, vertexCount_coarsen hvalid, size_communityRoster hvalid]

theorem graphs_are_quotients_square :
    ∃ k, (ofGraph .default square).graphs[1]? = some k ∧ k.vertexCount = 2
      ∧ (square.coarsen? ((ofGraph .default square).assignmentAfter 1)).map Coarsening.graph
        = .ok k := by
  have hcount : (ofGraph .default square).graphs[1]?.map vertexCount = some 2 := by decide +kernel
  obtain ⟨k, hget, hcount⟩ := Option.map_eq_some_iff.mp hcount
  exact ⟨k, hget, hcount, (graphs_are_quotients .default square).1 1 k hget⟩

end CallCommunities
