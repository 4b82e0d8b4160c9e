import CallCommunities.Proofs.Arrays
import CallCommunities.Proofs.Graph.Weights
import CallCommunities.Proofs.Mention

/-!
# Proofs/Graph/Names — vertices by name

Distinct vertices have distinct names (`name_injOn`), so a name finds its vertex
(`vertexOf?_eq_some_iff`), and calls can be counted between names (`callsNamed`).  **The rank of a
vertex is its place in the order of the names**: `rank_lt_iff` reads a comparison of ranks as a
comparison of names, and no two vertices have the same rank.  The second half reads the tables of a
`LinkView` back as functions of the graph.
-/

namespace CallCommunities

open KeyOrder

namespace CallGraph

variable {g : CallGraph} {u v : ℕ} {s : String}

/-! ## Names -/

theorem getElem?_items : g.vertices.items[v]? = some s ↔ v < g.vertexCount ∧ g.name v = s := by
  rw [List.getElem?_eq_some_iff, name, List.getD_eq_getElem?_getD]
  constructor
  · rintro ⟨hv, rfl⟩
    exact ⟨hv, by rw [List.getElem?_eq_getElem hv]; rfl⟩
  · rintro ⟨hv, rfl⟩
    have hv' : v < g.vertices.items.length := hv
    exact ⟨hv, by rw [List.getElem?_eq_getElem hv']; rfl⟩

/-- **A name finds its vertex.** -/
theorem vertexOf?_eq_some_iff : g.vertexOf? s = some v ↔ v < g.vertexCount ∧ g.name v = s :=
  Roster.indexOf?_eq_some_iff.trans getElem?_items

theorem vertexOf?_name (hv : v < g.vertexCount) : g.vertexOf? (g.name v) = some v :=
  vertexOf?_eq_some_iff.mpr ⟨hv, rfl⟩

theorem name_mem (hv : v < g.vertexCount) : g.name v ∈ g.vertices.items :=
  List.mem_of_getElem? (getElem?_items.mpr ⟨hv, rfl⟩)

theorem exists_name_eq (hs : s ∈ g.vertices.items) : ∃ v, v < g.vertexCount ∧ g.name v = s := by
  obtain ⟨v, hv⟩ := List.getElem?_of_mem hs
  exact ⟨v, getElem?_items.mp hv⟩

/-- **Distinct vertices have distinct names.** -/
theorem name_injOn (hu : u < g.vertexCount) (hv : v < g.vertexCount) (h : g.name u = g.name v) :
    u = v := by
  have hu' := vertexOf?_name hu
  rw [h, vertexOf?_name hv] at hu'
  exact (Option.some.inj hu').symm

theorem map_name_vertexList (g : CallGraph) : g.vertexList.map g.name = g.vertices.items := by
  refine List.ext_getElem? fun i => Option.ext fun s => ?_
  rw [getElem?_items, List.getElem?_map, vertexList, Option.map_eq_some_iff]
  constructor
  · rintro ⟨v, hv, rfl⟩
    obtain ⟨hi, rfl⟩ := List.getElem?_eq_some_iff.mp hv
    rw [List.getElem_range]
    exact ⟨by simpa using hi, rfl⟩
  · rintro ⟨hi, rfl⟩
    exact ⟨i, by rw [List.getElem?_range hi], rfl⟩

/-! ## Calls by name -/

/-- The number of calls between two names, none when a name is no vertex. -/
def callsNamed (g : CallGraph) (s t : String) : ℕ :=
  ((g.vertexOf? s).bind fun u => (g.vertexOf? t).map fun v => g.weight u v).getD 0

theorem callsNamed_name (hu : u < g.vertexCount) (hv : v < g.vertexCount) :
    g.callsNamed (g.name u) (g.name v) = g.weight u v := by
  rw [callsNamed, vertexOf?_name hu, vertexOf?_name hv]
  rfl

theorem vertexOf?_eq_none (hs : s ∉ g.vertices.items) : g.vertexOf? s = none := by
  refine Option.eq_none_iff_forall_ne_some.mpr fun v hv => hs ?_
  obtain ⟨hlt, rfl⟩ := vertexOf?_eq_some_iff.mp hv
  exact name_mem hlt

/-- A name that is no vertex has no calls. -/
theorem callsNamed_eq_zero (hs : s ∉ g.vertices.items) (t : String) :
    g.callsNamed s t = 0 ∧ g.callsNamed t s = 0 := by
  simp only [callsNamed, vertexOf?_eq_none hs]
  refine ⟨rfl, ?_⟩
  cases g.vertexOf? t <;> rfl

/-- An arc counts the calls between the names of its ends. -/
theorem callsNamed_arc {e : Arc} (he : e ∈ g.arcs) :
    g.callsNamed (g.name e.source) (g.name e.target) = e.weight := by
  have hget := mem_arcs.mp he
  obtain ⟨hsource, htarget, -⟩ := fits_of_get? hget
  rw [callsNamed_name hsource htarget, weight, hget, Option.getD_some]

/-- **There are calls between two names when an arc joins their vertices.** -/
theorem callsNamed_pos_iff {t : String} : 0 < g.callsNamed s t
    ↔ ∃ e ∈ g.arcs, g.name e.source = s ∧ g.name e.target = t := by
  constructor
  · intro hpos
    have hs : s ∈ g.vertices.items := by
      by_contra hs
      exact absurd (callsNamed_eq_zero hs t).1 (by omega)
    have ht : t ∈ g.vertices.items := by
      by_contra ht
      exact absurd (callsNamed_eq_zero ht s).2 (by omega)
    obtain ⟨u, hu, rfl⟩ := exists_name_eq hs
    obtain ⟨v, hv, rfl⟩ := exists_name_eq ht
    rw [callsNamed_name hu hv] at hpos
    refine ⟨⟨u, v, g.weight u v⟩, mem_arcs.mpr ?_, rfl, rfl⟩
    rw [get?_weights, if_neg hpos.ne']
  · rintro ⟨e, he, rfl, rfl⟩
    rw [callsNamed_arc he]
    exact (fits_of_get? (mem_arcs.mp he)).2.2

/-- Without directions, the calls of two vertices are those of their names. -/
theorem linkWeight_eq_callsNamed (hu : u < g.vertexCount) (hv : v < g.vertexCount) :
    g.linkWeight u v
      = g.callsNamed (g.name u) (g.name v) + g.callsNamed (g.name v) (g.name u) := by
  rw [callsNamed_name hu hv, callsNamed_name hv hu, linkWeight]

/-! ## Ranks -/

theorem rank_eq_card (g : CallGraph) (v : ℕ) :
    g.rank v = {s ∈ g.vertices.items.toFinset | before s (g.name v) = true}.card := by
  rw [rank, List.countP_eq_length_filter, ← List.toFinset_filter,
    List.toFinset_card_of_nodup (g.vertices.nodup.filter _)]

theorem rank_lt_of_before (hu : u < g.vertexCount) (h : before (g.name u) (g.name v) = true) :
    g.rank u < g.rank v := by
  rw [rank_eq_card, rank_eq_card]
  refine Finset.card_lt_card (Finset.ssubset_iff_of_subset ?_ |>.mpr ⟨g.name u, ?_, ?_⟩)
  · intro s hs
    obtain ⟨hmem, hs⟩ := Finset.mem_filter.mp hs
    exact Finset.mem_filter.mpr ⟨hmem, before_trans hs h⟩
  · exact Finset.mem_filter.mpr ⟨List.mem_toFinset.mpr (name_mem hu), h⟩
  · simp [before_irrefl]

/-- **Ranks compare as names do.** -/
theorem rank_lt_iff (hu : u < g.vertexCount) (hv : v < g.vertexCount) :
    g.rank u < g.rank v ↔ before (g.name u) (g.name v) = true := by
  refine ⟨fun hlt => ?_, rank_lt_of_before hu⟩
  by_contra hb
  rcases Bool.eq_false_or_eq_true (before (g.name v) (g.name u)) with hvu | hvu
  · exact absurd (rank_lt_of_before hv hvu) (by omega)
  · have := name_injOn hu hv (eq_of_not_before (by simpa using hb) hvu)
    subst this
    exact lt_irrefl _ hlt

/-- Where names compare alike, in one graph or in two, ranks do. -/
theorem rank_le_iff_rank_le {h : CallGraph} {x y : ℕ} (hu : u < g.vertexCount)
    (hv : v < g.vertexCount) (hx : x < h.vertexCount) (hy : y < h.vertexCount)
    (hname : before (h.name y) (h.name x) = true ↔ before (g.name v) (g.name u) = true) :
    h.rank x ≤ h.rank y ↔ g.rank u ≤ g.rank v := by
  rw [← not_lt, ← not_lt, rank_lt_iff hy hx, rank_lt_iff hv hu, hname]

theorem rank_injOn (hu : u < g.vertexCount) (hv : v < g.vertexCount) (h : g.rank u = g.rank v) :
    u = v := by
  refine name_injOn hu hv (eq_of_not_before ?_ ?_)
  · exact Bool.eq_false_iff.mpr fun hb => absurd (rank_lt_of_before hu hb) (by omega)
  · exact Bool.eq_false_iff.mpr fun hb => absurd (rank_lt_of_before hv hb) (by omega)

theorem rank_lt_vertexCount (hv : v < g.vertexCount) : g.rank v < g.vertexCount := by
  rw [rank_eq_card, vertexCount, Roster.size, ← List.toFinset_card_of_nodup g.vertices.nodup]
  refine Finset.card_lt_card (Finset.ssubset_iff_of_subset (Finset.filter_subset _ _) |>.mpr ?_)
  exact ⟨g.name v, List.mem_toFinset.mpr (name_mem hv), by simp [before_irrefl]⟩

/-! ## The tables of the undirected view -/

@[simp] theorem linkView_total (g : CallGraph) : g.linkView.total = g.totalWeight := rfl

@[simp] theorem linkView_size (g : CallGraph) : g.linkView.size = g.vertexCount := by
  simp [linkView, LinkView.size, vertexList]

@[simp] theorem linkView_vertexList (g : CallGraph) : g.linkView.vertexList = g.vertexList := by
  rw [LinkView.vertexList, linkView_size, vertexList]

theorem linkView_rank (hv : v < g.vertexCount) : g.linkView.rank v = g.rank v :=
  getD_tabulated _ _ hv

@[simp] theorem linkView_degree (g : CallGraph) (v : ℕ) : g.linkView.degree v = g.degree v := by
  rcases lt_or_ge v g.vertexCount with hv | hv
  · exact getD_tabulated _ _ hv
  · exact (getD_tabulated_of_le _ _ hv).trans (degree_eq_zero hv).symm

theorem incident_eq_nil (hv : g.vertexCount ≤ v) : g.incident v = [] := by
  refine List.eq_nil_iff_forall_not_mem.mpr fun ⟨u, w⟩ hu => ?_
  obtain ⟨-, hpos, rfl⟩ := mem_incident.mp hu
  rw [linkWeight_comm, linkWeight_eq_zero hv] at hpos
  exact lt_irrefl 0 hpos

@[simp] theorem linkView_linksOf (g : CallGraph) (v : ℕ) : g.linkView.linksOf v = g.incident v := by
  rcases lt_or_ge v g.vertexCount with hv | hv
  · exact getD_tabulated _ _ hv
  · exact (getD_tabulated_of_le _ _ hv).trans (incident_eq_nil hv).symm

/-- Of two vertices, the one that comes first by name. -/
theorem lowest_eq (hu : u < g.vertexCount) (hv : v < g.vertexCount) :
    g.linkView.lowest u v = if g.rank v < g.rank u then v else u := by
  rw [LinkView.lowest, linkView_rank hu, linkView_rank hv]

end CallGraph

end CallCommunities
