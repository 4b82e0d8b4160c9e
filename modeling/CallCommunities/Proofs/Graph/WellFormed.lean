import CallCommunities.Proofs.Graph.Names

/-!
# Proofs/Graph/WellFormed — what the parts of a graph have to do with each other

Names, ranks, neighbours, loops, degrees and the total weight of a graph say the same thing several times
over, and all that is computed from a graph relies on their agreement: ties are broken by rank as by name,
gains are exact because degrees come from links and loops, and walks follow links in either direction.

`CallGraph.WellFormed` puts down what that agreement is.  **Every graph is well formed**
(`CallGraph.wellFormed`), since a graph is only its names and weights and all else is computed from these.
-/

namespace CallCommunities

open Finset KeyOrder

namespace CallGraph

variable {g : CallGraph} {u v w : ℕ}

/-! ## The statement -/

/-- What the parts of a graph have to do with each other. -/
structure WellFormed (g : CallGraph) : Prop where
  /-- No two vertices have one name, ... -/
  nodup_names : (g.vertexList.map g.name).Nodup
  /-- ... and looking up a name is the inverse of naming a vertex. -/
  vertexOf?_iff : ∀ s v, g.vertexOf? s = some v ↔ v < g.vertexCount ∧ g.name v = s
  /-- The ranks are a permutation of the vertices, ... -/
  perm_ranks : (g.vertexList.map g.rank).Perm g.vertexList
  /-- ... the one that sorts the names. -/
  rank_lt_iff : ∀ u < g.vertexCount, ∀ v < g.vertexCount,
    (g.rank u < g.rank v ↔ g.name u < g.name v)
  /-- The arcs are those that the vertices list, one vertex after the other. -/
  arcs_eq : g.arcs = g.vertexList.flatMap fun v => (g.outgoing v).map fun p => ⟨v, p.1, p.2⟩
  /-- What a vertex calls stands in increasing order. -/
  sorted_outgoing : ∀ v, (g.outgoing v).Pairwise fun p q => p.1 < q.1
  /-- It lists vertices with positive weights, those of the arcs to them. -/
  mem_outgoing_iff : ∀ v u w,
    (u, w) ∈ g.outgoing v ↔ u < g.vertexCount ∧ 0 < w ∧ w = g.weight v u
  /-- The neighbours of a vertex stand in increasing order, ... -/
  sorted_incident : ∀ v, (g.incident v).Pairwise fun p q => p.1 < q.1
  /-- ... are listed from both sides with the same number of calls, ... -/
  incident_symm : ∀ u v w, (u, w) ∈ g.incident v ↔ (v, w) ∈ g.incident u
  /-- ... do not include the vertex itself ... -/
  incident_loopless : ∀ v w, (v, w) ∉ g.incident v
  /-- ... and share with it the calls of both directions together. -/
  mem_incident_iff : ∀ u v w, u ≠ v →
    ((u, w) ∈ g.incident v ↔ g.weight u v + g.weight v u = w ∧ 0 < w)
  /-- A degree counts loops twice and every link once, ... -/
  degree_eq_links : ∀ v, g.degree v = 2 * g.loopWeight v + sumOver (·.2) (g.incident v)
  /-- ... which is what leaves the vertex and what enters it. -/
  degree_eq_ends : ∀ v, g.degree v
    = sumOver Arc.weight (g.arcs.filter fun e => e.source = v)
      + sumOver Arc.weight (g.arcs.filter fun e => e.target = v)
  /-- The degrees add up to twice the total weight, ... -/
  sum_degrees : sumOver g.degree g.vertexList = 2 * g.totalWeight
  /-- ... which is that of all arcs. -/
  totalWeight_eq : g.totalWeight = sumOver Arc.weight g.arcs

/-! ## Names and ranks -/

theorem nodup_map_name (g : CallGraph) : (g.vertexList.map g.name).Nodup :=
  g.map_name_vertexList ▸ g.vertices.nodup

/-- **The ranks are the vertices in another order.** -/
theorem perm_map_rank (g : CallGraph) : (g.vertexList.map g.rank).Perm g.vertexList := by
  have hnodup : (g.vertexList.map g.rank).Nodup := List.Nodup.map_on (fun u hu v hv huv =>
    rank_injOn (List.mem_range.mp hu) (List.mem_range.mp hv) huv) List.nodup_range
  have hsub : g.vertexList.map g.rank ⊆ g.vertexList := fun x hx => by
    obtain ⟨v, hv, rfl⟩ := List.mem_map.mp hx
    exact List.mem_range.mpr (rank_lt_vertexCount (List.mem_range.mp hv))
  exact (hnodup.subperm hsub).perm_of_length_le (by rw [List.length_map])

theorem rank_lt_iff_name_lt (hu : u < g.vertexCount) (hv : v < g.vertexCount) :
    g.rank u < g.rank v ↔ g.name u < g.name v :=
  (rank_lt_iff hu hv).trans decide_eq_true_iff

/-! ## Arcs and neighbours -/

/-- **The weights are listed vertex by vertex.** -/
theorem entries_eq_flatMap (g : CallGraph) : g.weights.entries
    = g.vertexList.flatMap fun v => (g.outgoing v).map fun p => ((v, p.1), p.2) := by
  refine SortedMap.entries_eq_of_mem_iff g.weights.sorted ?_ fun ⟨⟨s, t⟩, w⟩ => ?_
  · refine List.pairwise_flatMap.mpr ⟨fun v _ => ?_, List.pairwise_lt_range.imp fun huv => ?_⟩
    · refine List.pairwise_map.mpr ((g.pairwise_outgoing v).imp fun hlt => ?_)
      simpa [before] using hlt
    · intro x hx y hy
      obtain ⟨p, -, rfl⟩ := List.mem_map.mp hx
      obtain ⟨q, -, rfl⟩ := List.mem_map.mp hy
      simp [before, huv]
  · rw [← SortedMap.get?_eq_some_iff, List.mem_flatMap]
    constructor
    · intro hget
      exact ⟨s, List.mem_range.mpr (fits_of_get? hget).1,
        List.mem_map.mpr ⟨(t, w), mem_outgoing.mpr hget, rfl⟩⟩
    · rintro ⟨v, -, hv⟩
      obtain ⟨p, hp, heq⟩ := List.mem_map.mp hv
      cases heq
      exact mem_outgoing.mp hp

theorem arcs_eq_flatMap (g : CallGraph) :
    g.arcs = g.vertexList.flatMap fun v => (g.outgoing v).map fun p => ⟨v, p.1, p.2⟩ := by
  rw [arcs, entries_eq_flatMap, List.map_flatMap]
  simp only [List.map_map]
  rfl

/-- What a vertex calls are the vertices to which an arc has weight. -/
theorem mem_outgoing_iff_weight :
    (u, w) ∈ g.outgoing v ↔ u < g.vertexCount ∧ 0 < w ∧ w = g.weight v u := by
  rw [mem_outgoing, get?_weights]
  constructor
  · intro hget
    obtain ⟨-, hu, hw⟩ := fits_of_get? (g.get?_weights v u ▸ hget)
    refine ⟨hu, hw, ?_⟩
    split at hget
    · cases hget
    · exact (Option.some.inj hget).symm
  · rintro ⟨-, hw, rfl⟩
    rw [if_neg (Nat.ne_of_gt hw)]

theorem pairwise_incident (g : CallGraph) (v : ℕ) :
    (g.incident v).Pairwise fun p q => p.1 < q.1 := by
  rw [incident_eq]
  refine List.Pairwise.filterMap _ ?_ List.pairwise_lt_range
  intro u u' hlt b hb b' hb'
  split at hb <;> split at hb' <;> simp only [Option.some.injEq, reduceCtorEq] at hb hb'
  subst hb hb'
  exact hlt

/-! ## Degrees -/

/-- **A degree counts loops twice and every link once.** -/
theorem degree_eq_loops_add_links (g : CallGraph) (v : ℕ) :
    g.degree v = 2 * g.loopWeight v + sumOver (·.2) (g.incident v) := by
  have hlinks : sumOver (·.2) (g.incident v) = ∑ u ∈ g.vertexSet.erase v, g.linkWeight v u :=
    (sumOver_eq_sum_map _ _).trans (g.sum_incident v (fun _ w => w) fun _ => rfl)
  have hloops : g.linkWeight v v = 2 * g.loopWeight v := (Nat.two_mul _).symm
  rw [hlinks, degree_eq_sum, ← hloops]
  by_cases hv : v ∈ g.vertexSet
  · exact (add_sum_erase _ _ hv).symm
  · rw [erase_eq_of_notMem hv, linkWeight_eq_zero (not_lt.mp (mt mem_vertexSet.mpr hv)), Nat.zero_add]

/-- **Every graph is well formed.** -/
theorem wellFormed (g : CallGraph) : g.WellFormed where
  nodup_names := g.nodup_map_name
  vertexOf?_iff _ _ := vertexOf?_eq_some_iff
  perm_ranks := g.perm_map_rank
  rank_lt_iff _ hu _ hv := rank_lt_iff_name_lt hu hv
  arcs_eq := g.arcs_eq_flatMap
  sorted_outgoing := g.pairwise_outgoing
  mem_outgoing_iff _ _ _ := mem_outgoing_iff_weight
  sorted_incident := g.pairwise_incident
  incident_symm u v w := by
    rw [mem_incident, mem_incident, ne_comm, linkWeight_comm]
  incident_loopless v w h := (mem_incident.mp h).1 rfl
  mem_incident_iff u v w huv := by
    rw [mem_incident, and_iff_right huv, and_comm, eq_comm, linkWeight_comm]
    rfl
  degree_eq_links := g.degree_eq_loops_add_links
  degree_eq_ends v := by
    rw [sumOver_filter, sumOver_filter, sumOver_source, sumOver_target]
    rfl
  sum_degrees := by
    rw [sumOver_eq_sum_map, vertexList, sum_map_range]
    exact g.sum_degree
  totalWeight_eq := rfl

end CallGraph

end CallCommunities
