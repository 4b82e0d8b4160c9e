import CallCommunities.Partition.Coarsening
import CallCommunities.Proofs.Partition.Groups

/-!
# Proofs/Partition/Blocks — the coarse graph, vertex by vertex

Coarsening sends the vertex `v` to `placeOf a v` and names the coarse vertex `x` after the vertex
`identifierOf a x`; on a valid assignment the two undo each other (`identifierOf_placeOf`).  The
**block** of `x` is what was merged into it, and everything about `x` is a sum over its block:

* `weight_coarsen`, `linkWeight_coarsen` — the weights between two coarse vertices;
* `degree_coarsen` — degrees add up;
* `totalWeight_coarsen` — the total weight stays.
-/

namespace CallCommunities

open Finset Assignment

namespace CallGraph

variable {g : CallGraph} {a : Assignment} {u v x y c d : ℕ}

/-! ## Graphs from arcs -/

theorem getD_get?_foldl_add (k : ℕ × ℕ) : ∀ (arcs : List Arc) (m : SortedMap (ℕ × ℕ) ℕ),
    ((arcs.foldl (fun w e => w.add (e.source, e.target) e.weight) m).get? k).getD 0
      = (m.get? k).getD 0 + sumOver (fun e => if (e.source, e.target) = k then e.weight else 0) arcs
  | [], m => by simp
  | e :: arcs, m => by
    have hadd : ((m.add (e.source, e.target) e.weight).get? k).getD 0
        = (m.get? k).getD 0 + if (e.source, e.target) = k then e.weight else 0 := by
      unfold SortedMap.add
      split
      · rename_i hk
        rw [hk, SortedMap.get?_upsert_self, Option.getD_some]
      · rename_i hk
        rw [SortedMap.get?_upsert_of_ne _ _ (Ne.symm hk), Nat.add_zero]
    rw [List.foldl_cons, getD_get?_foldl_add k arcs, hadd, sumOver_cons, Nat.add_assoc]

/-- A graph built from arcs that fit leaves none of them out. -/
theorem weights_ofArcs {vertices : Roster String} {arcs : List Arc}
    (hfit : ∀ e ∈ arcs, e.Fits vertices.size) : (ofArcs vertices arcs).weights = accumulate arcs :=
  congrArg accumulate (List.filter_eq_self.mpr fun e he => decide_eq_true (hfit e he))

/-- **The weights of a graph built from arcs add up those arcs.** -/
theorem weight_ofArcs {vertices : Roster String} {arcs : List Arc}
    (hfit : ∀ e ∈ arcs, e.Fits vertices.size) (s t : ℕ) :
    (ofArcs vertices arcs).weight s t
      = sumOver (fun e => if (e.source, e.target) = (s, t) then e.weight else 0) arcs := by
  rw [weight, weights_ofArcs hfit, accumulate, getD_get?_foldl_add, SortedMap.get?_empty,
    Option.getD_none, Nat.zero_add]

/-! ## Places and identifiers -/

/-- The coarse vertex that a vertex is merged into. -/
def placeOf (g : CallGraph) (a : Assignment) (v : ℕ) : ℕ :=
  ((g.communityRoster a).indexOf? (a.labelOf v)).getD 0

/-- The community identifier that a coarse vertex stands for. -/
def identifierOf (g : CallGraph) (a : Assignment) (x : ℕ) : ℕ :=
  (g.communityRoster a).items.getD x 0

theorem mem_communityRoster :
    c ∈ (g.communityRoster a).items ↔ ∃ v, v < g.vertexCount ∧ a.labelOf v = c := by
  rw [communityRoster, Roster.mem_ofList, List.mem_map]
  exact exists_congr fun v => and_congr_left fun _ => List.mem_range

theorem identifierOf_eq_getElem (hx : x < (g.communityRoster a).items.length) :
    g.identifierOf a x = (g.communityRoster a).items[x] := by
  rw [identifierOf, List.getD_eq_getElem?_getD, List.getElem?_eq_getElem hx, Option.getD_some]

theorem exists_labelOf_eq (hx : x < (g.communityRoster a).size) :
    ∃ v, v < g.vertexCount ∧ a.labelOf v = g.identifierOf a x := by
  rw [identifierOf_eq_getElem hx]
  exact mem_communityRoster.mp (List.getElem_mem _)

theorem identifierOf_lt (h : a.Valid g.vertexCount) (hx : x < (g.communityRoster a).size) :
    g.identifierOf a x < g.vertexCount := by
  obtain ⟨v, hv, hlabel⟩ := exists_labelOf_eq hx
  exact hlabel ▸ h.labelOf_lt hv

theorem identifierOf_injOn (hx : x < (g.communityRoster a).size)
    (hy : y < (g.communityRoster a).size) (h : g.identifierOf a x = g.identifierOf a y) :
    x = y := by
  rw [identifierOf_eq_getElem hx, identifierOf_eq_getElem hy] at h
  exact (List.Nodup.getElem_inj_iff (g.communityRoster a).nodup).mp h

theorem placeOf_spec (hv : v < g.vertexCount) : g.placeOf a v < (g.communityRoster a).size
    ∧ g.identifierOf a (g.placeOf a v) = a.labelOf v := by
  obtain ⟨i, hi, hindex⟩ :=
    Roster.exists_indexOf?_of_mem (mem_communityRoster.mpr ⟨v, hv, (rfl : a.labelOf v = _)⟩)
  rw [placeOf, hindex, Option.getD_some]
  refine ⟨hi, ?_⟩
  rw [identifierOf, List.getD_eq_getElem?_getD, Roster.indexOf?_eq_some_iff.mp hindex]
  rfl

theorem placeOf_lt (hv : v < g.vertexCount) : g.placeOf a v < (g.communityRoster a).size :=
  (placeOf_spec hv).1

/-- **A coarse vertex stands for the community of everything in it.** -/
theorem identifierOf_placeOf (hv : v < g.vertexCount) :
    g.identifierOf a (g.placeOf a v) = a.labelOf v := (placeOf_spec hv).2

theorem placeOf_eq_iff (hv : v < g.vertexCount) (hx : x < (g.communityRoster a).size) :
    g.placeOf a v = x ↔ a.labelOf v = g.identifierOf a x := by
  refine ⟨fun h => h ▸ (identifierOf_placeOf hv).symm, fun h => ?_⟩
  exact identifierOf_injOn (placeOf_lt hv) hx ((identifierOf_placeOf hv).trans h)

theorem placeOf_eq_placeOf_iff (hu : u < g.vertexCount) (hv : v < g.vertexCount) :
    g.placeOf a u = g.placeOf a v ↔ a.labelOf u = a.labelOf v := by
  rw [placeOf_eq_iff hu (placeOf_lt hv), identifierOf_placeOf hv]

/-- **The places come in order**: each new one is the next number. -/
theorem items_ofList_map_placeOf (g : CallGraph) (a : Assignment) :
    (Roster.ofList (g.vertexList.map (g.placeOf a))).items
      = List.range (g.communityRoster a).size := by
  have hfactor : g.vertexList.map (g.placeOf a)
      = (g.vertexList.map a.labelOf).map fun c => ((g.communityRoster a).indexOf? c).getD 0 := by
    rw [List.map_map]
    rfl
  rw [hfactor, Roster.items_ofList_map]
  · refine List.ext_getElem (by simp [communityRoster, Roster.size]) fun x hx _ => ?_
    have hx : x < (g.communityRoster a).items.length := by rwa [List.length_map] at hx
    rw [List.getElem_map, List.getElem_range]
    have hindex : (g.communityRoster a).indexOf? (g.communityRoster a).items[x] = some x :=
      Roster.indexOf?_eq_some_iff.mpr (List.getElem?_eq_getElem hx)
    exact congrArg (Option.getD · 0) hindex
  · intro c hc d hd hcd
    obtain ⟨i, -, hi⟩ := Roster.exists_indexOf?_of_mem (Roster.mem_ofList.mpr hc)
    obtain ⟨j, -, hj⟩ := Roster.exists_indexOf?_of_mem (Roster.mem_ofList.mpr hd)
    simp only [communityRoster, hi, hj, Option.getD_some] at hcd
    have hi' := Roster.indexOf?_eq_some_iff.mp hi
    rw [hcd, Roster.indexOf?_eq_some_iff.mp hj] at hi'
    exact (Option.some.inj hi').symm

/-! ## The tables of a coarsening -/

theorem getElem?_projection (v : ℕ) :
    (g.coarsen a).projection[v]? = if v < g.vertexCount then some (g.placeOf a v) else none := by
  have htable : (g.coarsen a).projection = (g.vertexList.map (g.placeOf a)).toArray := rfl
  rw [htable, List.getElem?_toArray, List.getElem?_map, vertexList]
  split
  · rename_i hv
    rw [List.getElem?_range hv, Option.map_some]
  · rename_i hv
    rw [List.getElem?_eq_none (by simpa using hv), Option.map_none]

theorem getElem?_origin (x : ℕ) : (g.coarsen a).origin[x]?
    = if x < (g.communityRoster a).size then some (g.identifierOf a x) else none := by
  have htable : (g.coarsen a).origin = (g.communityRoster a).items.toArray := rfl
  rw [htable, List.getElem?_toArray]
  split
  · rename_i hx
    have hx : x < (g.communityRoster a).items.length := hx
    rw [identifierOf_eq_getElem hx, List.getElem?_eq_getElem hx]
  · rename_i hx
    exact List.getElem?_eq_none (not_lt.mp hx)

theorem getD_projection (hv : v < g.vertexCount) (d : ℕ) :
    (g.coarsen a).projection.getD v d = g.placeOf a v := by
  rw [Array.getD_eq_getD_getElem?, getElem?_projection, if_pos hv, Option.getD_some]

theorem getD_origin (hx : x < (g.communityRoster a).size) (d : ℕ) :
    (g.coarsen a).origin.getD x d = g.identifierOf a x := by
  rw [Array.getD_eq_getD_getElem?, getElem?_origin, if_pos hx, Option.getD_some]

/-- An assignment of the right size is never refused. -/
theorem coarsen?_eq (hs : a.size = g.vertexCount) : g.coarsen? a = .ok (g.coarsen a) :=
  if_neg (not_not.mpr hs)

theorem items_coarsen (h : a.Valid g.vertexCount) :
    (g.coarsen a).graph.vertices.items = (g.communityRoster a).items.map g.name := by
  refine Roster.items_ofList_of_nodup (List.Nodup.map_on ?_ (g.communityRoster a).nodup)
  intro c hc d hd hname
  obtain ⟨u, hu, rfl⟩ := mem_communityRoster.mp hc
  obtain ⟨v, hv, rfl⟩ := mem_communityRoster.mp hd
  exact name_injOn (h.labelOf_lt hu) (h.labelOf_lt hv) hname

theorem vertexCount_coarsen (h : a.Valid g.vertexCount) :
    (g.coarsen a).graph.vertexCount = (g.communityRoster a).size := by
  rw [vertexCount, Roster.size, items_coarsen h, List.length_map]
  rfl

/-- A coarse vertex is named after its community identifier. -/
theorem name_coarsen (h : a.Valid g.vertexCount) (hx : x < (g.communityRoster a).size) :
    (g.coarsen a).graph.name x = g.name (g.identifierOf a x) := by
  have hx' : x < (g.communityRoster a).items.length := hx
  rw [name, items_coarsen h, List.getD_eq_getElem?_getD, List.getElem?_map,
    List.getElem?_eq_getElem hx', identifierOf_eq_getElem hx']
  rfl

theorem size_communityRoster (h : a.Valid g.vertexCount) :
    (g.communityRoster a).size = a.communityCount := by
  rw [Roster.size, h.communityCount_eq, ← List.toFinset_card_of_nodup (g.communityRoster a).nodup]
  refine congrArg card (Finset.ext fun c => ?_)
  simp only [List.mem_toFinset, mem_communityRoster, mem_image, mem_range]

/-- Coarse vertices rank as their identifiers do. -/
theorem rank_coarsen_le_iff (h : a.Valid g.vertexCount) (hx : x < (g.communityRoster a).size)
    (hy : y < (g.communityRoster a).size) :
    (g.coarsen a).graph.rank x ≤ (g.coarsen a).graph.rank y
      ↔ g.rank (g.identifierOf a x) ≤ g.rank (g.identifierOf a y) := by
  have hcount := vertexCount_coarsen h
  refine rank_le_iff_rank_le (identifierOf_lt h hx) (identifierOf_lt h hy) (hcount.symm ▸ hx)
    (hcount.symm ▸ hy) ?_
  rw [name_coarsen h hx, name_coarsen h hy]

/-! ## Sums over blocks -/

/-- The vertices merged into one coarse vertex. -/
def block (g : CallGraph) (a : Assignment) (x : ℕ) : Finset ℕ :=
  {v ∈ g.vertexSet | g.placeOf a v = x}

theorem mem_block : v ∈ g.block a x ↔ v < g.vertexCount ∧ g.placeOf a v = x := by
  rw [block, mem_filter, mem_vertexSet]

/-- **A sum over the blocks is a sum over the vertices.** -/
theorem sum_block {M : Type} [AddCommMonoid M] (h : a.Valid g.vertexCount) (f : ℕ → M) :
    ∑ x ∈ (g.coarsen a).graph.vertexSet, ∑ v ∈ g.block a x, f v = ∑ v ∈ g.vertexSet, f v := by
  refine sum_fiberwise_of_maps_to (fun v hv => ?_) f
  rw [mem_vertexSet, vertexCount_coarsen h]
  exact placeOf_lt (mem_vertexSet.mp hv)

/-- The arcs of the graph, each between the two places. -/
def projectedArcs (g : CallGraph) (a : Assignment) : List Arc :=
  g.arcs.map fun e => ⟨(g.coarsen a).projection.getD e.source 0,
    (g.coarsen a).projection.getD e.target 0, e.weight⟩

theorem fits_projectedArcs (h : a.Valid g.vertexCount) :
    ∀ e ∈ g.projectedArcs a, e.Fits (g.coarsen a).graph.vertexCount := by
  intro e he
  obtain ⟨arc, harc, rfl⟩ := List.mem_map.mp he
  obtain ⟨entry, hentry, rfl⟩ := List.mem_map.mp harc
  obtain ⟨hs, ht, hw⟩ := g.fits entry hentry
  rw [vertexCount_coarsen h]
  exact ⟨getD_projection hs 0 ▸ placeOf_lt hs, getD_projection ht 0 ▸ placeOf_lt ht, hw⟩

/-- The weights between coarse vertices add up the arcs between the places. -/
theorem weights_coarsen (h : a.Valid g.vertexCount) :
    (g.coarsen a).graph.weights = accumulate (g.projectedArcs a) :=
  weights_ofArcs (fits_projectedArcs h)

/-- The weight of every arc goes to the arc between the two places. -/
theorem weight_coarsen_eq_sumOver (h : a.Valid g.vertexCount) (x y : ℕ) :
    (g.coarsen a).graph.weight x y = sumOver (fun e : Arc =>
      if ((g.coarsen a).projection.getD e.source 0, (g.coarsen a).projection.getD e.target 0) = (x, y)
      then e.weight else 0) g.arcs :=
  (weight_ofArcs (fits_projectedArcs h) x y).trans (sumOver_map _ _ _)

/-- **The weight between two coarse vertices is the weight between their blocks.** -/
theorem weight_coarsen (h : a.Valid g.vertexCount) (x y : ℕ) :
    (g.coarsen a).graph.weight x y = ∑ u ∈ g.block a x, ∑ v ∈ g.block a y, g.weight u v := by
  refine (weight_coarsen_eq_sumOver h x y).trans ((sumOver_arcs g (fun s t w =>
    if ((g.coarsen a).projection.getD s 0, (g.coarsen a).projection.getD t 0) = (x, y) then w
    else 0) (by simp)).trans ?_)
  rw [block, sum_filter]
  refine sum_congr rfl fun u hu => ?_
  rw [block, sum_filter, getD_projection (mem_vertexSet.mp hu)]
  split
  · rename_i hx
    refine sum_congr rfl fun v hv => ?_
    rw [getD_projection (mem_vertexSet.mp hv), hx]
    simp
  · rename_i hx
    exact sum_eq_zero fun v _ => if_neg fun hxy => hx (congrArg Prod.fst hxy)

theorem linkWeight_coarsen (h : a.Valid g.vertexCount) (x y : ℕ) :
    (g.coarsen a).graph.linkWeight x y
      = ∑ u ∈ g.block a x, ∑ v ∈ g.block a y, g.linkWeight u v := by
  rw [linkWeight, weight_coarsen h, weight_coarsen h, sum_comm (s := g.block a y),
    ← sum_add_distrib]
  exact sum_congr rfl fun u _ => sum_add_distrib.symm

/-- **Degrees add up over a block.** -/
theorem degree_coarsen (h : a.Valid g.vertexCount) (x : ℕ) :
    (g.coarsen a).graph.degree x = ∑ v ∈ g.block a x, g.degree v := by
  rw [degree_eq_sum]
  simp only [linkWeight_coarsen h]
  rw [sum_comm]
  refine sum_congr rfl fun v _ => ?_
  rw [sum_block h, degree_eq_sum]

/-- **The total weight stays.** -/
theorem totalWeight_coarsen (h : a.Valid g.vertexCount) :
    (g.coarsen a).graph.totalWeight = g.totalWeight := by
  have hdouble : 2 * (g.coarsen a).graph.totalWeight = 2 * g.totalWeight := by
    rw [← sum_degree, ← sum_degree]
    simp only [degree_coarsen h]
    exact sum_block h g.degree
  omega

end CallGraph

end CallCommunities
