import CallCommunities.Proofs.Partition.Embedding
import CallCommunities.Proofs.Partition.PullBack
import Mathlib.Data.List.NodupEquivFin
import Mathlib.Data.List.Sort

/-!
# Proofs/Partition/Carried — the coarse graph of a copy

Let `h` hold a copy of `g`, with the vertices in their order.  Coarse vertices are numbered by first
vertices, so the copies of the communities of `g` come in the order of the communities
(`filter_communityRoster`), with the other vertices in between.  This gives a place to every coarse
vertex of `g` (`exists_carries`), **the coarse graph of `h` holds a copy of the coarse graph of `g`**
(`embeds_coarsen`), and pulling partitions back commutes with spreading them (`spread_pullBack`).
-/

namespace CallCommunities

open Finset Assignment

namespace CallGraph

variable {c : ℕ} {φ : ℕ → ℕ} {g h : CallGraph} {a b : Assignment} {v x : ℕ}

namespace Embeds

variable (hE : Embeds c φ g h)
include hE

/-! ## The order of the communities -/

/-- Where the order is kept, the copies are met in the order of the vertices. -/
theorem filter_vertexList (hφ : StrictMonoOn φ (Set.Iio g.vertexCount)) :
    h.vertexList.filter (· ∈ g.placed φ) = g.placed φ := by
  have hsorted : (g.placed φ).Pairwise (· < ·) := by
    refine List.pairwise_map.mpr (List.pairwise_lt_range.imp_of_mem fun {u v} hu hv huv => ?_)
    exact hφ (List.mem_range.mp hu) (List.mem_range.mp hv) huv
  refine (List.pairwise_lt_range.filter _).eq_of_mem_iff hsorted fun x => ?_
  rw [List.mem_filter, decide_eq_true_eq]
  refine and_iff_right_of_imp fun hx => ?_
  obtain ⟨v, hv, rfl⟩ := mem_placed.mp hx
  exact List.mem_range.mpr (hE.lt v hv)

/-- **The copies of the communities come in the order of the communities.** -/
theorem filter_communityRoster (hφ : StrictMonoOn φ (Set.Iio g.vertexCount))
    (ha : a.Valid g.vertexCount) :
    (h.communityRoster (a.spread φ g h)).items.filter (· ∈ g.placed φ)
      = (g.communityRoster a).items.map φ := by
  have hlabels : (h.vertexList.map (a.spread φ g h).labelOf).filter (· ∈ g.placed φ)
      = (g.vertexList.map a.labelOf).map φ := by
    have hpred : ((fun x => decide (x ∈ g.placed φ)) ∘ (a.spread φ g h).labelOf)
        = fun x => decide (x ∈ g.placed φ) :=
      funext fun x => decide_eq_decide.mpr (hE.labelOf_spread_mem_placed ha)
    rw [List.filter_map, hpred, hE.filter_vertexList hφ, placed, List.map_map, List.map_map]
    exact List.map_congr_left fun v hv => hE.labelOf_spread a (List.mem_range.mp hv)
  rw [communityRoster, ← Roster.items_ofList_filter, hlabels, Roster.items_ofList_map]
  · rfl
  · intro d hd e he heq
    obtain ⟨u, hu, rfl⟩ := List.mem_map.mp hd
    obtain ⟨v, hv, rfl⟩ := List.mem_map.mp he
    exact hE.injOn (ha.labelOf_lt (List.mem_range.mp hu)) (ha.labelOf_lt (List.mem_range.mp hv)) heq

end Embeds

/-! ## Coarse graphs -/

/-- Whether `ψ` places the communities of `a`, in order, where the spread partition has the communities
of their copies. -/
structure Carries (φ ψ : ℕ → ℕ) (g h : CallGraph) (a : Assignment) : Prop where
  strictMono : StrictMono ψ
  lt : ∀ x < (g.communityRoster a).size, ψ x < (h.communityRoster (a.spread φ g h)).size
  identifierOf_eq : ∀ x < (g.communityRoster a).size,
    h.identifierOf (a.spread φ g h) (ψ x) = φ (g.identifierOf a x)

theorem Embeds.exists_carries (hE : Embeds c φ g h) (hφ : StrictMonoOn φ (Set.Iio g.vertexCount))
    (ha : a.Valid g.vertexCount) : ∃ ψ, Carries φ ψ g h a := by
  have hsub : ((g.communityRoster a).items.map φ).Sublist
      (h.communityRoster (a.spread φ g h)).items :=
    hE.filter_communityRoster hφ ha ▸ List.filter_sublist
  obtain ⟨ψ, hψ⟩ := List.sublist_iff_exists_orderEmbedding_getElem?_eq.mp hsub
  have hfound : ∀ x < (g.communityRoster a).size,
      (h.communityRoster (a.spread φ g h)).items[ψ x]? = some (φ (g.identifierOf a x)) := by
    intro x hx
    have hx' : x < (g.communityRoster a).items.length := hx
    rw [← hψ, List.getElem?_map, List.getElem?_eq_getElem hx', identifierOf_eq_getElem hx']
    rfl
  refine ⟨ψ, ψ.strictMono, fun x hx => ?_, fun x hx => ?_⟩
  · exact (List.getElem?_eq_some_iff.mp (hfound x hx)).1
  · rw [identifierOf, List.getD_eq_getElem?_getD, hfound x hx]
    rfl

namespace Carries

variable {ψ : ℕ → ℕ} (hC : Carries φ ψ g h a) (hE : Embeds c φ g h) (ha : a.Valid g.vertexCount)
include hC hE

/-- **A copy is merged into the copy of the community.** -/
theorem placeOf_eq (hv : v < g.vertexCount) :
    h.placeOf (a.spread φ g h) (φ v) = ψ (g.placeOf a v) := by
  have hx := placeOf_lt (a := a) hv
  rw [placeOf_eq_iff (hE.lt v hv) (hC.lt _ hx), hC.identifierOf_eq _ hx, identifierOf_placeOf hv,
    hE.labelOf_spread a hv]

include ha

theorem placeOf_mem_placed (hx : x < h.vertexCount) :
    h.placeOf (a.spread φ g h) x ∈ (g.coarsen a).graph.placed ψ ↔ x ∈ g.placed φ := by
  constructor
  · intro hmem
    obtain ⟨y, hy, hplace⟩ := mem_placed.mp hmem
    rw [vertexCount_coarsen ha] at hy
    obtain ⟨v, hv, hlabel⟩ := exists_labelOf_eq hy
    have hid := hC.identifierOf_eq y hy
    rw [hplace, identifierOf_placeOf hx] at hid
    rw [← hE.labelOf_spread_mem_placed ha, hid, ← hlabel]
    exact mem_placed_of_lt (ha.labelOf_lt hv)
  · intro hmem
    obtain ⟨v, hv, rfl⟩ := mem_placed.mp hmem
    rw [hC.placeOf_eq hE hv]
    exact mem_placed_of_lt (placeOf_lt_vertexCount ha hv)

omit ha in
/-- A block of copies holds the copies of a block. -/
theorem sum_block_eq {M : Type} [AddCommMonoid M] (f : ℕ → M)
    (hf : ∀ x, x ∉ g.placed φ → f x = 0) (x : ℕ) :
    ∑ y ∈ h.block (a.spread φ g h) (ψ x), f y = ∑ v ∈ g.block a x, f (φ v) := by
  rw [block, block, sum_filter, sum_filter, hE.sum_vertexSet _ fun y hy => by rw [hf y hy, ite_self]]
  refine sum_congr rfl fun v hv => if_congr ?_ rfl rfl
  rw [hC.placeOf_eq hE (mem_vertexSet.mp hv), hC.strictMono.injective.eq_iff]

/-- **Coarse graphs embed again**, by the same factor. -/
theorem embeds_coarsen :
    Embeds c ψ (g.coarsen a).graph (h.coarsen (a.spread φ g h)).graph := by
  have hb := hE.valid_spread ha
  have hcount := vertexCount_coarsen ha
  refine ⟨fun x hx => ?_, fun x hx y hy => ?_, fun x hx y hy => ?_, fun z hz y => ?_⟩
  · rw [vertexCount_coarsen hb]
    exact hC.lt x (hcount ▸ hx)
  · rw [hcount] at hx hy
    rw [rank_coarsen_le_iff hb (hC.lt x hx) (hC.lt y hy), rank_coarsen_le_iff ha hx hy,
      hC.identifierOf_eq x hx, hC.identifierOf_eq y hy]
    exact hE.rank_le_iff _ (identifierOf_lt ha hx) _ (identifierOf_lt ha hy)
  · rw [linkWeight_coarsen hb, linkWeight_coarsen ha, hC.sum_block_eq hE, mul_sum]
    · refine sum_congr rfl fun u hu => ?_
      rw [hC.sum_block_eq hE _ fun v hv => hE.idle_right hv _, mul_sum]
      exact sum_congr rfl fun v hv =>
        hE.linkWeight_eq u (mem_block.mp hu).1 v (mem_block.mp hv).1
    · exact fun u hu => sum_eq_zero fun v _ => hE.idle u hu v
  · rw [linkWeight_coarsen hb]
    refine sum_eq_zero fun u hu => sum_eq_zero fun v _ => hE.idle u (fun hmem => hz ?_) v
    obtain ⟨hlt, rfl⟩ := mem_block.mp hu
    exact (hC.placeOf_mem_placed hE ha hlt).mpr hmem

/-- **Pulling back commutes with spreading.** -/
theorem spread_pullBack (hb : b.Valid (g.coarsen a).graph.vertexCount) :
    (h.coarsen (a.spread φ g h)).pullBack h
        (b.spread ψ (g.coarsen a).graph (h.coarsen (a.spread φ g h)).graph)
      = ((g.coarsen a).pullBack g b).spread φ g h := by
  have hcoarse := hC.embeds_coarsen hE ha
  have hvalid := hE.valid_spread ha
  have hcount := vertexCount_coarsen ha
  refine hE.eq_spread (size_pullBack _ _ _) (fun v hv => ?_) fun x hx hmem => ?_
  · have hplace := placeOf_lt_vertexCount ha hv
    rw [labelOf_pullBack hvalid (hcoarse.valid_spread hb) (hE.lt v hv), hC.placeOf_eq hE hv,
      hcoarse.labelOf_spread b hplace, labelOf_pullBack ha hb hv,
      hC.identifierOf_eq _ (hcount ▸ hb.labelOf_lt hplace)]
  · rw [labelOf_pullBack hvalid (hcoarse.valid_spread hb) hx, Embeds.labelOf_spread_idle b
      ((hC.placeOf_mem_placed hE ha hx).not.mpr hmem), identifierOf_placeOf hx,
      Embeds.labelOf_spread_idle a hmem]

end Carries

end CallGraph

end CallCommunities
