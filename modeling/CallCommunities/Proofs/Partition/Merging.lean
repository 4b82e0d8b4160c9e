import CallCommunities.Proofs.Partition.Gains
import CallCommunities.Proofs.Partition.PullBack

/-!
# Proofs/Partition/Merging — what merging keeps

The **place** of a vertex is the coarse vertex that it is merged into.  What the coarse graph says of a
place adds up what was merged there: degrees over the members of a community
(`degree_coarsen_eq_degreeSum`), and in the loop all calls among them (`loopWeight_coarsen`).

A partition of the coarse graph has the weight inside its communities and the squared degree sums of any
partition below that it lifts to, so **one may merge and go on with the coarse graph**
(`merging_keeps_score`), any number of times: merging twice gives, table by table, what merging once gives
(`merging_composes`).
-/

namespace CallCommunities

open Finset Assignment

/-- The partition of the fine graph that labels every vertex as `b` labels its coarse vertex. -/
def Coarsening.along (k : Coarsening) (g : CallGraph) (b : Assignment) : Assignment :=
  .tabulate g.vertexCount fun v => b.labelOf (k.projection.getD v v)

namespace CallGraph

variable {g : CallGraph} {a b c : Assignment} {v x : ℕ}

/-! ## One place -/

/-- **The members of a community are what was merged into its place.** -/
theorem mem_members_identifierOf (hs : a.size = g.vertexCount)
    (hx : x < (g.communityRoster a).size) :
    v ∈ a.members (g.identifierOf a x) ↔ (g.coarsen a).projection[v]? = some x := by
  rw [mem_members, hs, getElem?_projection]
  split
  · rename_i hv
    rw [and_iff_right hv, Option.some_inj, placeOf_eq_iff hv hx]
  · rename_i hv
    exact iff_of_false (fun h => hv h.1) (Option.some_ne_none x).symm

theorem degree_coarsen_eq_degreeSum (h : a.Valid g.vertexCount)
    (hx : x < (g.communityRoster a).size) :
    (g.coarsen a).graph.degree x = a.degreeSum g.degree (g.identifierOf a x) := by
  rw [degree_coarsen h, degreeSum_eq_sum, h.1, block]
  exact sum_congr (filter_congr fun v hv => placeOf_eq_iff (mem_vertexSet.mp hv) hx) fun _ _ => rfl

/-- **The loop of a place has all calls among the members**, in both directions and their own loops. -/
theorem loopWeight_coarsen (h : a.Valid g.vertexCount) (hx : x < (g.communityRoster a).size) :
    (g.coarsen a).graph.loopWeight x = sumOver Arc.weight (g.arcs.filter fun e =>
      a.labelOf e.source = g.identifierOf a x ∧ a.labelOf e.target = g.identifierOf a x) := by
  rw [loopWeight, weight_coarsen_eq_sumOver h, sumOver_filter]
  refine sumOver_congr fun e he => if_congr ?_ rfl rfl
  obtain ⟨entry, hentry, rfl⟩ := List.mem_map.mp he
  obtain ⟨hs, ht, -⟩ := g.fits entry hentry
  rw [getD_projection hs, getD_projection ht, Prod.mk.injEq, placeOf_eq_iff hs hx,
    placeOf_eq_iff ht hx]

/-! ## A partition above and below -/

/-- There are no more places than vertices, so the labels of the places can be taken for vertices. -/
theorem lifts_along (h : a.Valid g.vertexCount) (hb : b.Valid (g.coarsen a).graph.vertexCount) :
    (g.coarsen a).Lifts g b ((g.coarsen a).along g b) where
  valid := by
    have hcount : (g.coarsen a).graph.vertexCount ≤ g.vertexCount := by
      rw [vertexCount_coarsen h, size_communityRoster h]
      exact h.communityCount_le
    refine valid_tabulate fun v hv => (hb.labelOf_lt ?_).trans_le hcount
    rw [getD_projection hv]
    exact placeOf_lt_vertexCount h hv
  labelOf_eq_iff u hu v hv := by
    rw [Coarsening.along, labelOf_tabulate _ hu, labelOf_tabulate _ hv]

theorem internalWeight_of_lifts (h : a.Valid g.vertexCount) (hc : (g.coarsen a).Lifts g b c) :
    g.internalWeight c = (g.coarsen a).graph.internalWeight b := by
  have hdouble : 2 * (g.coarsen a).graph.internalWeight b = 2 * g.internalWeight c := by
    rw [two_mul_internalWeight, two_mul_internalWeight]
    exact sum_together_of_lifts h hc (linkWeight_coarsen h)
  omega

theorem sum_sq_of_lifts (h : a.Valid g.vertexCount) (hb : b.Valid (g.coarsen a).graph.vertexCount)
    (hc : (g.coarsen a).Lifts g b c) : sumOver (fun s => s * s) (g.communityDegrees c)
      = sumOver (fun s => s * s) ((g.coarsen a).graph.communityDegrees b) := by
  rw [sum_sq_communityDegrees hc.valid, sum_sq_communityDegrees hb]
  refine (sum_together_of_lifts h hc fun x y => ?_).symm
  rw [degree_coarsen h, degree_coarsen h, sum_mul_sum]

end CallGraph

open CallGraph

/-- **Merging keeps what the score is made of, for all partitions of the coarse graph.**  The total weight
stays.  Every place stands for a community: it has the degrees of the members together, and in its loop
all calls among them.  And a partition of the coarse graph has the weight inside communities, the squared
degree sums and the score of every partition below that it lifts to, be it labelled by places or by what
they stand for. -/
theorem merging_keeps_score (g : CallGraph) {a : Assignment} (ha : a.Valid g.vertexCount) :
    ∃ k, g.coarsen? a = .ok k
    ∧ k.graph.totalWeight = g.totalWeight
    ∧ (∀ x < k.graph.vertexCount, ∃ c, k.origin[x]? = some c
      ∧ (∀ v, v ∈ a.members c ↔ k.projection[v]? = some x)
      ∧ k.graph.degree x = sumOver g.degree (a.members c)
      ∧ k.graph.loopWeight x = sumOver Arc.weight (g.arcs.filter fun e =>
        a.labelOf e.source = c ∧ a.labelOf e.target = c))
    ∧ ∀ b : Assignment, b.Valid k.graph.vertexCount →
      k.Lifts g b (k.along g b) ∧ k.Lifts g b (k.pullBack g b)
      ∧ ∀ c, k.Lifts g b c → g.internalWeight c = k.graph.internalWeight b
        ∧ sumOver (fun s => s * s) (g.communityDegrees c)
          = sumOver (fun s => s * s) (k.graph.communityDegrees b)
        ∧ g.score c = k.graph.score b := by
  refine ⟨g.coarsen a, coarsen?_eq ha.1, totalWeight_coarsen ha, fun x hx => ?_, fun b hb => ?_⟩
  · rw [vertexCount_coarsen ha] at hx
    exact ⟨g.identifierOf a x, (getElem?_origin x).trans (if_pos hx),
      fun v => mem_members_identifierOf ha.1 hx, degree_coarsen_eq_degreeSum ha hx,
      loopWeight_coarsen ha hx⟩
  · refine ⟨lifts_along ha hb, lifts_pullBack ha hb, fun c hc => ?_⟩
    exact ⟨internalWeight_of_lifts ha hc, sum_sq_of_lifts ha hb hc, score_of_lifts ha hb hc⟩

/-- The tadpole with `c` and `a` merged, and no community named after a member of it.  To label by place
takes the vertices `0` and `2` for places, to pull back takes what these stand for. -/
theorem merging_keeps_score_tadpole :
    Assignment.Valid tadpole.vertexCount ⟨#[3, 3, 0, 2]⟩
    ∧ ∃ k, tadpole.coarsen? ⟨#[3, 3, 0, 2]⟩ = .ok k
      ∧ k.graph.totalWeight = tadpole.totalWeight
      ∧ k.graph.degree 0 = tadpole.degree 0 + tadpole.degree 1 ∧ k.graph.loopWeight 0 = 2
      ∧ k.graph.score ⟨#[2, 2, 0]⟩ = tadpole.score ⟨#[2, 2, 2, 0]⟩
      ∧ k.graph.score ⟨#[2, 2, 0]⟩ = tadpole.score ⟨#[2, 2, 2, 3]⟩ := by
  have ha : Assignment.Valid tadpole.vertexCount ⟨#[3, 3, 0, 2]⟩ := ⟨rfl, by decide +kernel⟩
  obtain ⟨k, hk, htotal, hplaces, hscore⟩ := merging_keeps_score tadpole ha
  obtain rfl : tadpole.coarsen ⟨#[3, 3, 0, 2]⟩ = k := Except.ok.inj hk
  obtain ⟨c, hc, -, hdegree, hloop⟩ := hplaces 0 (by decide +kernel)
  obtain rfl : 3 = c := Option.some.inj ((by decide +kernel : _ = some 3).symm.trans hc)
  obtain ⟨halong, hback, hsame⟩ := hscore ⟨#[2, 2, 0]⟩ ⟨by decide +kernel, by decide +kernel⟩
  have hplace : (tadpole.coarsen ⟨#[3, 3, 0, 2]⟩).along tadpole ⟨#[2, 2, 0]⟩ = ⟨#[2, 2, 2, 0]⟩ := by
    decide +kernel
  have hname : (tadpole.coarsen ⟨#[3, 3, 0, 2]⟩).pullBack tadpole ⟨#[2, 2, 0]⟩ = ⟨#[2, 2, 2, 3]⟩ := by
    decide +kernel
  rw [hplace] at halong
  rw [hname] at hback
  exact ⟨ha, _, hk, htotal, hdegree, hloop, (hsame _ halong).2.2.symm, (hsame _ hback).2.2.symm⟩

/-! ## Merging twice -/

namespace CallGraph

section Composite

variable {g : CallGraph} {a b : Assignment} (h : a.Valid g.vertexCount)
  (hb : b.Valid (g.coarsen a).graph.vertexCount)
include h hb

/-- A vertex goes to the place of its place. -/
theorem getElem?_projection_pullBack (v : ℕ) :
    (g.coarsen ((g.coarsen a).pullBack g b)).projection[v]?
      = (g.coarsen a).projection[v]?.bind fun x => ((g.coarsen a).graph.coarsen b).projection[x]? := by
  rw [getElem?_projection, getElem?_projection]
  split
  · rename_i hv
    rw [Option.bind_some, getElem?_projection, if_pos (placeOf_lt_vertexCount h hv),
      placeOf_pullBack h hb hv]
  · rfl

/-- A place stands for what the identifier of a place stands for. -/
theorem getElem?_origin_pullBack (y : ℕ) :
    (g.coarsen ((g.coarsen a).pullBack g b)).origin[y]?
      = ((g.coarsen a).graph.coarsen b).origin[y]?.bind fun x => (g.coarsen a).origin[x]? := by
  rw [getElem?_origin, getElem?_origin, size_communityRoster_pullBack h hb]
  split
  · rename_i hy
    have hx := vertexCount_coarsen h ▸ identifierOf_lt hb hy
    rw [Option.bind_some, getElem?_origin, if_pos hx, identifierOf_pullBack h hb hy]
  · rfl

theorem getElem?_origin_labelOf {v : ℕ} (hv : v < g.vertexCount) :
    ((g.coarsen a).projection[v]?.bind fun x => (g.coarsen a).origin[b.labelOf x]?)
      = some (((g.coarsen a).pullBack g b).labelOf v) := by
  have hx := vertexCount_coarsen h ▸ hb.labelOf_lt (placeOf_lt_vertexCount h hv)
  rw [getElem?_projection, if_pos hv, Option.bind_some, getElem?_origin, if_pos hx,
    labelOf_pullBack h hb hv]

end Composite

end CallGraph

/-- **Merging twice is merging once.**  Merge by `a`, and the coarse graph by `b`.  The partition of the
vertices that this amounts to leads to the second coarse graph at once, in its names, their order and all
calls.  Its places are the places of places, and they stand for what the identifiers stand for. -/
theorem merging_composes (g : CallGraph) {a : Assignment} (ha : a.Valid g.vertexCount) :
    ∃ A, g.coarsen? a = .ok A ∧ ∀ b : Assignment, b.Valid A.graph.vertexCount →
    ∃ B, A.graph.coarsen? b = .ok B ∧ (A.pullBack g b).Valid g.vertexCount
      ∧ (∀ v < g.vertexCount, (A.projection[v]?.bind fun x => A.origin[b.labelOf x]?)
        = some ((A.pullBack g b).labelOf v))
      ∧ ∃ C, g.coarsen? (A.pullBack g b) = .ok C ∧ C.graph = B.graph
        ∧ C.projection.size = g.vertexCount ∧ C.origin.size = B.graph.vertexCount
        ∧ (∀ v : ℕ, C.projection[v]? = A.projection[v]?.bind fun x => B.projection[x]?)
        ∧ ∀ y : ℕ, C.origin[y]? = B.origin[y]?.bind fun x => A.origin[x]? := by
  refine ⟨g.coarsen a, coarsen?_eq ha.1, fun b hb => ?_⟩
  have hvalid := valid_pullBack ha hb
  refine ⟨(g.coarsen a).graph.coarsen b, coarsen?_eq hb.1, hvalid,
    fun v hv => getElem?_origin_labelOf ha hb hv, g.coarsen ((g.coarsen a).pullBack g b),
    coarsen?_eq hvalid.1, graph_coarsen_pullBack ha hb, ?_, ?_,
    getElem?_projection_pullBack ha hb, getElem?_origin_pullBack ha hb⟩
  · simp [coarsen, vertexList]
  · rw [vertexCount_coarsen hb, ← size_communityRoster_pullBack ha hb]
    rfl

/-- The tadpole falls into three and then into two, and neither time is a community named after a member. -/
theorem merging_composes_tadpole :
    Assignment.Valid tadpole.vertexCount ⟨#[3, 3, 0, 2]⟩
    ∧ ∃ A B C, tadpole.coarsen? ⟨#[3, 3, 0, 2]⟩ = .ok A ∧ A.graph.coarsen? ⟨#[2, 2, 0]⟩ = .ok B
      ∧ tadpole.coarsen? ⟨#[2, 2, 2, 3]⟩ = .ok C ∧ C.graph = B.graph
      ∧ C.projection[3]? = A.projection[3]?.bind (fun x => B.projection[x]?)
      ∧ C.origin[1]? = B.origin[1]?.bind (fun x => A.origin[x]?) := by
  have ha : Assignment.Valid tadpole.vertexCount ⟨#[3, 3, 0, 2]⟩ := ⟨rfl, by decide +kernel⟩
  obtain ⟨A, hA, hcompose⟩ := merging_composes tadpole ha
  obtain rfl : tadpole.coarsen ⟨#[3, 3, 0, 2]⟩ = A := Except.ok.inj hA
  have hname : (tadpole.coarsen ⟨#[3, 3, 0, 2]⟩).pullBack tadpole ⟨#[2, 2, 0]⟩ = ⟨#[2, 2, 2, 3]⟩ := by
    decide +kernel
  obtain ⟨B, hB, -, -, C, hC, hgraph, -, -, hprojection, horigin⟩ :=
    hcompose ⟨#[2, 2, 0]⟩ ⟨by decide +kernel, by decide +kernel⟩
  rw [hname] at hC
  exact ⟨ha, _, B, C, hA, hB, hC, hgraph, hprojection 3, horigin 1⟩

end CallCommunities
