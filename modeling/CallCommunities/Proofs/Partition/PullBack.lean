import CallCommunities.Detection
import CallCommunities.Proofs.Partition.Balance
import CallCommunities.Proofs.Partition.Blocks

/-!
# Proofs/Partition/PullBack — a partition of the coarse graph, seen below

Pulling a partition of the coarse graph back gives the vertices of the graph the community of the
coarse vertex they are in.  It is the same partition: what adds up over the pairs that are together is the
same above and below (`sum_together_of_lifts`), so it has the same score (`score_pullBack`), its
own coarse graph is the coarse graph of the coarse graph (`graph_coarsen_pullBack`), pulling back
twice is pulling back once along the composite (`pullBack_pullBack`), and lowest names of lowest
names are lowest names (`canonical_pullBack`).
-/

namespace CallCommunities

open Finset Assignment

/-- Whether `c` puts vertices of `g` together exactly when `b` puts their coarse vertices together. -/
structure Coarsening.Lifts (k : Coarsening) (g : CallGraph) (b c : Assignment) : Prop where
  valid : c.Valid g.vertexCount
  labelOf_eq_iff : ∀ u < g.vertexCount, ∀ v < g.vertexCount, (c.labelOf u = c.labelOf v
    ↔ b.labelOf (k.projection.getD u u) = b.labelOf (k.projection.getD v v))

namespace CallGraph

variable {g : CallGraph} {a b c : Assignment} {u v x y : ℕ}

/-! ## Labels -/

@[simp] theorem size_pullBack (k : Coarsening) (g : CallGraph) (b : Assignment) :
    (k.pullBack g b).size = g.vertexCount := size_tabulate _ _

theorem placeOf_lt_vertexCount (h : a.Valid g.vertexCount) (hv : v < g.vertexCount) :
    g.placeOf a v < (g.coarsen a).graph.vertexCount := by
  rw [vertexCount_coarsen h]
  exact placeOf_lt hv

/-- **A vertex takes the identifier of the community that its coarse vertex is in.** -/
theorem labelOf_pullBack (h : a.Valid g.vertexCount) (hb : b.Valid (g.coarsen a).graph.vertexCount)
    (hv : v < g.vertexCount) : ((g.coarsen a).pullBack g b).labelOf v
      = g.identifierOf a (b.labelOf (g.placeOf a v)) := by
  have hlt := hb.labelOf_lt (placeOf_lt_vertexCount h hv)
  rw [Coarsening.pullBack, labelOf_tabulate _ hv, getD_projection hv]
  exact getD_origin (vertexCount_coarsen h ▸ hlt) v

theorem valid_pullBack (h : a.Valid g.vertexCount) (hb : b.Valid (g.coarsen a).graph.vertexCount) :
    ((g.coarsen a).pullBack g b).Valid g.vertexCount := by
  refine valid_of_labelOf_lt (size_pullBack _ _ _) fun v hv => ?_
  rw [labelOf_pullBack h hb hv]
  exact identifierOf_lt h (vertexCount_coarsen h ▸ hb.labelOf_lt (placeOf_lt_vertexCount h hv))

/-- **Vertices are together when their coarse vertices are.** -/
theorem labelOf_pullBack_eq_iff (h : a.Valid g.vertexCount)
    (hb : b.Valid (g.coarsen a).graph.vertexCount) (hu : u < g.vertexCount)
    (hv : v < g.vertexCount) :
    ((g.coarsen a).pullBack g b).labelOf u = ((g.coarsen a).pullBack g b).labelOf v
      ↔ b.labelOf (g.placeOf a u) = b.labelOf (g.placeOf a v) := by
  rw [labelOf_pullBack h hb hu, labelOf_pullBack h hb hv]
  refine ⟨identifierOf_injOn ?_ ?_, congrArg _⟩
  · exact vertexCount_coarsen h ▸ hb.labelOf_lt (placeOf_lt_vertexCount h hu)
  · exact vertexCount_coarsen h ▸ hb.labelOf_lt (placeOf_lt_vertexCount h hv)

theorem lifts_pullBack (h : a.Valid g.vertexCount) (hb : b.Valid (g.coarsen a).graph.vertexCount) :
    (g.coarsen a).Lifts g b ((g.coarsen a).pullBack g b) where
  valid := valid_pullBack h hb
  labelOf_eq_iff u hu v hv := by
    rw [labelOf_pullBack_eq_iff h hb hu hv, getD_projection hu, getD_projection hv]

/-- Pulling back keeps together what was merged. -/
theorem merges_pullBack (h : a.Valid g.vertexCount)
    (hb : b.Valid (g.coarsen a).graph.vertexCount) : Merges a ((g.coarsen a).pullBack g b) := by
  refine ⟨h.1.trans (size_pullBack _ _ _).symm, fun u v hu hv huv => ?_⟩
  have hu : u < g.vertexCount := h.1 ▸ hu
  have hv : v < g.vertexCount := h.1 ▸ hv
  rw [labelOf_pullBack_eq_iff h hb hu hv, (placeOf_eq_placeOf_iff hu hv).mpr huv]

/-- Keeping the coarse vertices apart gives back the partition that was merged. -/
theorem pullBack_singletons (h : a.Valid g.vertexCount) :
    (g.coarsen a).pullBack g (singletons (g.coarsen a).graph.vertexCount) = a := by
  refine ext_labelOf ((size_pullBack _ _ _).trans h.1.symm) fun v hv => ?_
  have hv : v < g.vertexCount := size_pullBack _ g _ ▸ hv
  rw [labelOf_pullBack h (valid_singletons _) hv, labelOf_singletons, identifierOf_placeOf hv]

/-! ## Pairs above and below -/

/-- A sum over pairs of blocks, taken over the pairs of coarse vertices, is one over the pairs of
vertices. -/
theorem sum_block_block {M : Type} [AddCommMonoid M] (h : a.Valid g.vertexCount) (p : ℕ → ℕ → Prop)
    [DecidableRel p] (f : ℕ → ℕ → M) :
    (∑ x ∈ (g.coarsen a).graph.vertexSet, ∑ y ∈ (g.coarsen a).graph.vertexSet,
        if p x y then ∑ u ∈ g.block a x, ∑ v ∈ g.block a y, f u v else 0)
      = ∑ u ∈ g.vertexSet, ∑ v ∈ g.vertexSet,
        if p (g.placeOf a u) (g.placeOf a v) then f u v else 0 := by
  rw [← sum_block h]
  refine sum_congr rfl fun x _ => ?_
  have hinner : ∀ u ∈ g.block a x, (∑ v ∈ g.vertexSet,
      if p (g.placeOf a u) (g.placeOf a v) then f u v else 0)
      = ∑ y ∈ (g.coarsen a).graph.vertexSet, if p x y then ∑ v ∈ g.block a y, f u v else 0 := by
    intro u hu
    rw [← sum_block h, (mem_block.mp hu).2]
    refine sum_congr rfl fun y _ => ?_
    split
    · rename_i hxy
      exact sum_congr rfl fun v hv => if_pos ((mem_block.mp hv).2.symm ▸ hxy)
    · rename_i hxy
      exact sum_eq_zero fun v hv => if_neg ((mem_block.mp hv).2.symm ▸ hxy)
  rw [sum_congr rfl hinner, sum_comm]
  refine sum_congr rfl fun y _ => ?_
  split
  · rfl
  · exact sum_const_zero.symm

/-- **Sums over the pairs that are together are the same above and below.** -/
theorem sum_together_of_lifts {M : Type} [AddCommMonoid M] (h : a.Valid g.vertexCount)
    (hc : (g.coarsen a).Lifts g b c) {F f : ℕ → ℕ → M}
    (hF : ∀ x y, F x y = ∑ u ∈ g.block a x, ∑ v ∈ g.block a y, f u v) :
    (∑ x ∈ (g.coarsen a).graph.vertexSet, ∑ y ∈ (g.coarsen a).graph.vertexSet,
        if b.labelOf x = b.labelOf y then F x y else 0)
      = ∑ u ∈ g.vertexSet, ∑ v ∈ g.vertexSet, if c.labelOf u = c.labelOf v then f u v else 0 := by
  simp only [hF]
  rw [sum_block_block h (fun x y => b.labelOf x = b.labelOf y)]
  refine sum_congr rfl fun u hu => sum_congr rfl fun v hv => if_congr ?_ rfl rfl
  have hu := mem_vertexSet.mp hu
  have hv := mem_vertexSet.mp hv
  rw [hc.labelOf_eq_iff u hu v hv, getD_projection hu, getD_projection hv]

/-! ## The score -/

/-- The balance of two coarse vertices is the balance of their blocks. -/
theorem balance_coarsen (h : a.Valid g.vertexCount) (x y : ℕ) :
    (g.coarsen a).graph.balance x y = ∑ u ∈ g.block a x, ∑ v ∈ g.block a y, g.balance u v := by
  rw [balance, totalWeight_coarsen h, linkWeight_coarsen h, degree_coarsen h, degree_coarsen h]
  simp only [balance, sum_sub_distrib, ← mul_sum, Nat.cast_sum, sum_mul]

/-- **A partition of the coarse graph has the score of what it stands for.** -/
theorem score_of_lifts (h : a.Valid g.vertexCount) (hb : b.Valid (g.coarsen a).graph.vertexCount)
    (hc : (g.coarsen a).Lifts g b c) : g.score c = (g.coarsen a).graph.score b := by
  rw [score_eq_sum hc.valid, score_eq_sum hb]
  exact (sum_together_of_lifts h hc (balance_coarsen h)).symm

theorem score_pullBack (h : a.Valid g.vertexCount)
    (hb : b.Valid (g.coarsen a).graph.vertexCount) :
    g.score ((g.coarsen a).pullBack g b) = (g.coarsen a).graph.score b :=
  score_of_lifts h hb (lifts_pullBack h hb)

/-- The coarse graph starts with the score that the merged partition has. -/
theorem score_coarsen_singletons (h : a.Valid g.vertexCount) :
    (g.coarsen a).graph.score (singletons (g.coarsen a).graph.vertexCount) = g.score a := by
  rw [← score_pullBack h (valid_singletons _), pullBack_singletons h]

/-! ## Lowest names -/

/-- The identifier of a canonical community is placed where the community is. -/
theorem placeOf_identifierOf (h : Canonical g a) (hx : x < (g.communityRoster a).size) :
    g.placeOf a (g.identifierOf a x) = x := by
  obtain ⟨v, hv, hlabel⟩ := exists_labelOf_eq hx
  rw [placeOf_eq_iff (identifierOf_lt h.valid hx) hx, ← hlabel, h.labelOf_labelOf v hv]

/-- **The lowest name of the lowest names is the lowest name.** -/
theorem canonical_pullBack (h : Canonical g a) (hb : Canonical (g.coarsen a).graph b) :
    Canonical g ((g.coarsen a).pullBack g b) := by
  have hcount := vertexCount_coarsen h.valid
  have hvalid := valid_pullBack h.valid hb.valid
  refine ⟨hvalid, fun v hv => ?_, fun v hv => ?_⟩
  · have hplace := placeOf_lt_vertexCount h.valid hv
    have hlt := hb.valid.labelOf_lt hplace
    rw [labelOf_pullBack_eq_iff h.valid hb.valid (hvalid.labelOf_lt hv) hv,
      labelOf_pullBack h.valid hb.valid hv, placeOf_identifierOf h (hcount ▸ hlt),
      hb.labelOf_labelOf _ hplace]
  · have hplace := placeOf_lt_vertexCount h.valid hv
    have hlt := hb.valid.labelOf_lt hplace
    rw [labelOf_pullBack h.valid hb.valid hv]
    refine le_trans ?_ (h.rank_labelOf_le v hv)
    rw [← identifierOf_placeOf hv, ← rank_coarsen_le_iff h.valid (hcount ▸ hlt) (placeOf_lt hv)]
    exact hb.rank_labelOf_le _ hplace

/-! ## Coarsening what was pulled back -/

section Composite

variable (h : a.Valid g.vertexCount) (hb : b.Valid (g.coarsen a).graph.vertexCount)
include h hb

/-- **Communities of communities come in the order of their first vertices.** -/
theorem items_communityRoster_pullBack :
    (g.communityRoster ((g.coarsen a).pullBack g b)).items
      = ((g.coarsen a).graph.communityRoster b).items.map (g.identifierOf a) := by
  have hlabels : g.vertexList.map ((g.coarsen a).pullBack g b).labelOf
      = (g.vertexList.map (g.placeOf a)).map fun x => g.identifierOf a (b.labelOf x) := by
    rw [List.map_map]
    exact List.map_congr_left fun v hv => labelOf_pullBack h hb (List.mem_range.mp hv)
  have hcoarse : List.range (g.communityRoster a).size = (g.coarsen a).graph.vertexList := by
    rw [vertexList, vertexCount_coarsen h]
  have hsplit : (g.coarsen a).graph.vertexList.map (fun x => g.identifierOf a (b.labelOf x))
      = ((g.coarsen a).graph.vertexList.map b.labelOf).map (g.identifierOf a) := by
    rw [List.map_map]
    rfl
  rw [communityRoster, hlabels, Roster.ofList_map, items_ofList_map_placeOf, hcoarse, hsplit,
    Roster.items_ofList_map]
  · rfl
  · intro c hc d hd
    obtain ⟨x, hx, rfl⟩ := List.mem_map.mp hc
    obtain ⟨y, hy, rfl⟩ := List.mem_map.mp hd
    refine identifierOf_injOn ?_ ?_
    · exact vertexCount_coarsen h ▸ hb.labelOf_lt (List.mem_range.mp hx)
    · exact vertexCount_coarsen h ▸ hb.labelOf_lt (List.mem_range.mp hy)

theorem size_communityRoster_pullBack :
    (g.communityRoster ((g.coarsen a).pullBack g b)).size
      = ((g.coarsen a).graph.communityRoster b).size := by
  rw [Roster.size, items_communityRoster_pullBack h hb, List.length_map]
  rfl

theorem identifierOf_pullBack (hx : x < ((g.coarsen a).graph.communityRoster b).size) :
    g.identifierOf ((g.coarsen a).pullBack g b) x
      = g.identifierOf a ((g.coarsen a).graph.identifierOf b x) := by
  have hx' : x < ((g.coarsen a).graph.communityRoster b).items.length := hx
  rw [identifierOf, items_communityRoster_pullBack h hb, List.getD_eq_getElem?_getD,
    List.getElem?_map, List.getElem?_eq_getElem hx', identifierOf_eq_getElem hx']
  rfl

theorem placeOf_pullBack (hv : v < g.vertexCount) :
    g.placeOf ((g.coarsen a).pullBack g b) v = (g.coarsen a).graph.placeOf b (g.placeOf a v) := by
  have hplace := placeOf_lt_vertexCount h hv
  have hx := placeOf_lt (a := b) hplace
  rw [placeOf_eq_iff hv (size_communityRoster_pullBack h hb ▸ hx), labelOf_pullBack h hb hv,
    identifierOf_pullBack h hb hx, identifierOf_placeOf hplace]

theorem sum_block_pullBack {M : Type} [AddCommMonoid M] (f : ℕ → M) (z : ℕ) :
    ∑ v ∈ g.block ((g.coarsen a).pullBack g b) z, f v
      = ∑ x ∈ (g.coarsen a).graph.block b z, ∑ v ∈ g.block a x, f v := by
  have hmaps : ∀ v ∈ g.block ((g.coarsen a).pullBack g b) z,
      g.placeOf a v ∈ (g.coarsen a).graph.block b z := by
    intro v hv
    obtain ⟨hlt, hplace⟩ := mem_block.mp hv
    exact mem_block.mpr ⟨placeOf_lt_vertexCount h hlt, placeOf_pullBack h hb hlt ▸ hplace⟩
  rw [← sum_fiberwise_of_maps_to hmaps]
  refine sum_congr rfl fun x hx => sum_congr (Finset.ext fun v => ?_) fun _ _ => rfl
  rw [mem_filter, mem_block, mem_block]
  constructor
  · rintro ⟨⟨hv, -⟩, hplace⟩
    exact ⟨hv, hplace⟩
  · rintro ⟨hv, rfl⟩
    exact ⟨⟨hv, (placeOf_pullBack h hb hv).trans (mem_block.mp hx).2⟩, rfl⟩

/-- **Coarsening twice is coarsening once**, by the partition pulled back. -/
theorem graph_coarsen_pullBack :
    (g.coarsen ((g.coarsen a).pullBack g b)).graph = ((g.coarsen a).graph.coarsen b).graph := by
  have hvalid := valid_pullBack h hb
  refine ext_weight (Roster.ext_items ?_) fun x y => ?_
  · rw [items_coarsen hvalid, items_coarsen hb, items_communityRoster_pullBack h hb, List.map_map]
    refine List.map_congr_left fun x hx => ?_
    obtain ⟨y, hy, rfl⟩ := mem_communityRoster.mp hx
    exact (name_coarsen h (vertexCount_coarsen h ▸ hb.labelOf_lt hy)).symm
  · rw [weight_coarsen hvalid, weight_coarsen hb, sum_block_pullBack h hb]
    refine sum_congr rfl fun s _ => ?_
    simp only [sum_block_pullBack h hb, weight_coarsen h]
    exact sum_comm

/-- **Pulling back twice is pulling back once**, along the composite. -/
theorem pullBack_pullBack {c : Assignment}
    (hc : c.Valid ((g.coarsen a).graph.coarsen b).graph.vertexCount) :
    (g.coarsen a).pullBack g (((g.coarsen a).graph.coarsen b).pullBack (g.coarsen a).graph c)
      = (g.coarsen ((g.coarsen a).pullBack g b)).pullBack g c := by
  refine ext_labelOf (by simp) fun v hv => ?_
  have hv : v < g.vertexCount := size_pullBack _ g _ ▸ hv
  have hplace := placeOf_lt_vertexCount h hv
  have hlt := hc.labelOf_lt (placeOf_lt_vertexCount hb hplace)
  have hvalid := valid_pullBack h hb
  have hc' : c.Valid (g.coarsen ((g.coarsen a).pullBack g b)).graph.vertexCount := by
    rwa [graph_coarsen_pullBack h hb]
  rw [labelOf_pullBack h (valid_pullBack hb hc) hv, labelOf_pullBack hb hc hplace,
    labelOf_pullBack hvalid hc' hv, placeOf_pullBack h hb hv,
    identifierOf_pullBack h hb (vertexCount_coarsen hb ▸ hlt)]

end Composite

/-! ## Merging nothing -/

theorem items_communityRoster_singletons (g : CallGraph) :
    (g.communityRoster (singletons g.vertexCount)).items = List.range g.vertexCount := by
  have hlabels : g.vertexList.map (singletons g.vertexCount).labelOf = List.range g.vertexCount :=
    (List.map_congr_left fun v _ => labelOf_singletons _ v).trans (List.map_id _)
  rw [communityRoster, hlabels, Roster.items_ofList_of_nodup List.nodup_range]

theorem identifierOf_singletons (hx : x < g.vertexCount) :
    g.identifierOf (singletons g.vertexCount) x = x := by
  rw [identifierOf, items_communityRoster_singletons, List.getD_eq_getElem?_getD,
    List.getElem?_range hx, Option.getD_some]

theorem placeOf_singletons (hv : v < g.vertexCount) :
    g.placeOf (singletons g.vertexCount) v = v := by
  have hsize : v < (g.communityRoster (singletons g.vertexCount)).size := by
    rw [Roster.size, items_communityRoster_singletons, List.length_range]
    exact hv
  rw [placeOf_eq_iff hv hsize, labelOf_singletons, identifierOf_singletons hv]

/-- **Merging nothing changes nothing.** -/
theorem graph_coarsen_singletons (g : CallGraph) :
    (g.coarsen (singletons g.vertexCount)).graph = g := by
  have hblock : ∀ x, g.block (singletons g.vertexCount) x = {v ∈ g.vertexSet | v = x} := fun x =>
    filter_congr fun v hv => by rw [placeOf_singletons (mem_vertexSet.mp hv)]
  refine ext_weight (Roster.ext_items ?_) fun x y => ?_
  · rw [items_coarsen (valid_singletons _), items_communityRoster_singletons]
    exact map_name_vertexList g
  · rw [weight_coarsen (valid_singletons _), hblock, hblock, sum_filter, sum_ite_eq']
    split
    · rename_i hx
      rw [sum_filter, sum_ite_eq']
      split
      · rfl
      · rename_i hy
        exact (weight_eq_zero_of_target (not_lt.mp fun h => hy (mem_vertexSet.mpr h))).symm
    · rename_i hx
      exact (weight_eq_zero_of_source (not_lt.mp fun h => hx (mem_vertexSet.mpr h))).symm

theorem pullBack_of_singletons (hb : b.Valid g.vertexCount) :
    (g.coarsen (singletons g.vertexCount)).pullBack g b = b := by
  have hb' : b.Valid (g.coarsen (singletons g.vertexCount)).graph.vertexCount := by
    rwa [graph_coarsen_singletons]
  refine ext_labelOf ((size_pullBack _ _ _).trans hb.1.symm) fun v hv => ?_
  have hv : v < g.vertexCount := size_pullBack _ g _ ▸ hv
  rw [labelOf_pullBack (valid_singletons _) hb' hv, placeOf_singletons hv,
    identifierOf_singletons (hb.labelOf_lt hv)]

end CallGraph

end CallCommunities
