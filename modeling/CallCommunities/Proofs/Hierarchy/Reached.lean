import CallCommunities.Proofs.Hierarchy.Rounds
import CallCommunities.Proofs.Partition.Named
import CallCommunities.Proofs.Partition.PullBack

/-!
# Proofs/Hierarchy/Reached — the partition that a run reaches

`reached` follows the rounds on partitions alone: it pulls the rest of the run back along the first
round.  **The projections and the table of names describe the same partition** (`flatten_rounds`), and
the run ends on its coarse graph (`top_rounds`).

So detection writes down `reached`, and going on from a prior partition writes down what is reached
on its coarse graph, pulled back (`detect_eq`, `redetect_spec`).
-/

namespace CallCommunities

open Assignment CallGraph

namespace Hierarchy

variable {settings : Settings} {g : CallGraph} {a : Assignment} {v : ℕ}

/-! ## The partition reached -/

/-- The partition that a run of at most `r` rounds reaches. -/
def reached (settings : Settings) : ℕ → CallGraph → Assignment
  | 0, g => .singletons g.vertexCount
  | r + 1, g =>
    match next? settings g with
    | none => .singletons g.vertexCount
    | some a => (g.coarsen a).pullBack g (reached settings r (g.coarsen a).graph)

@[simp] theorem reached_zero (settings : Settings) (g : CallGraph) :
    reached settings 0 g = singletons g.vertexCount := rfl

theorem reached_of_none (h : next? settings g = none) (r : ℕ) :
    reached settings r g = singletons g.vertexCount := by
  rcases r with _ | r
  · rfl
  · rw [reached, h]

theorem reached_of_some (h : next? settings g = some a) (r : ℕ) : reached settings (r + 1) g
    = (g.coarsen a).pullBack g (reached settings r (g.coarsen a).graph) := by
  rw [reached, h]

theorem canonical_reached (settings : Settings) (r : ℕ) (g : CallGraph) :
    Canonical g (reached settings r g) := by
  induction r, g using round_induction settings with
  | zero g => exact canonical_singletons g
  | stop r g h =>
    rw [reached_of_none h]
    exact canonical_singletons g
  | step r g a h ih =>
    rw [reached_of_some h]
    exact canonical_pullBack (canonical_of_next? h) ih

theorem valid_reached (settings : Settings) (r : ℕ) (g : CallGraph) :
    (reached settings r g).Valid g.vertexCount := (canonical_reached settings r g).valid

theorem size_origin_coarsen (h : a.Valid g.vertexCount) :
    (g.coarsen a).origin.size = (g.coarsen a).graph.vertexCount := by
  rw [vertexCount_coarsen h]
  exact List.size_toArray

/-- The table of names of the coarse graph names the identifiers. -/
theorem getD_lift {origin : Array ℕ} {x : ℕ} (ho : origin.size = g.vertexCount)
    (h : a.Valid g.vertexCount) (hx : x < (g.communityRoster a).size) (d : ℕ) :
    (lift g a origin).getD x d = origin.getD (g.identifierOf a x) d := by
  have hx' : x < (g.coarsen a).origin.size := by
    rwa [size_origin_coarsen h, vertexCount_coarsen h]
  have hid : (g.coarsen a).origin[x] = g.identifierOf a x := by
    rw [← getD_origin hx 0, Array.getD_eq_getD_getElem?, Array.getElem?_eq_getElem hx',
      Option.getD_some]
  have hlt : g.identifierOf a x < origin.size := ho ▸ identifierOf_lt h hx
  simp [lift, Array.getD_eq_getD_getElem?, hx', hid, hlt]

/-- **The table of names, at the top vertex of `v`, names the community of `v`.** -/
theorem getD_origin_climb (settings : Settings) (r depth : ℕ) {g : CallGraph} {o : Array ℕ}
    (ho : o.size = g.vertexCount) (hv : v < g.vertexCount) (d : ℕ) :
    (climb settings r depth g o).origin.getD ((climb settings r depth g o).topOf v) d
      = o.getD ((reached settings r g).labelOf v) d := by
  induction r, g using round_induction settings generalizing depth o v with
  | zero g =>
    rw [reached_zero, labelOf_singletons]
    rfl
  | stop r g h =>
    rw [climb_of_none h, reached_of_none h, labelOf_singletons]
    rfl
  | step r g a h ih =>
    have ha := valid_of_next? h
    have hrest := valid_reached settings r (g.coarsen a).graph
    have hplace := placeOf_lt_vertexCount ha hv
    have hlt := vertexCount_coarsen ha ▸ hrest.labelOf_lt hplace
    have hsize : (lift g a o).size = (g.coarsen a).graph.vertexCount :=
      Array.size_map.trans (size_origin_coarsen ha)
    rw [climb_of_some h, reached_of_some h, topOf_under, getD_projection hv,
      labelOf_pullBack ha hrest hv, ← getD_lift ho ha hlt]
    exact ih (depth + 1) hsize hplace

/-- **The partition read off the tables is the one reached.** -/
theorem flatten_rounds (settings : Settings) (r : ℕ) (g : CallGraph) :
    (rounds settings r g).flatten = reached settings r g := by
  have hvalid := valid_reached settings r g
  have hsize : g.vertexList.toArray.size = g.vertexCount := by
    rw [List.size_toArray, vertexList, List.length_range]
  rw [flatten, base_rounds]
  refine ext_labelOf ((size_tabulate _ _).trans hvalid.1.symm) fun v hv => ?_
  have hv : v < g.vertexCount := size_tabulate g.vertexCount _ ▸ hv
  have hid := getD_tabulated id v (hvalid.labelOf_lt hv)
  rw [List.map_id] at hid
  rw [labelOf_tabulate _ hv, rounds, getD_origin_climb settings r 0 hsize hv v]
  exact hid

/-- **A run ends on the coarse graph of the partition it reaches.** -/
theorem top_rounds (settings : Settings) (r : ℕ) (g : CallGraph) :
    (rounds settings r g).top = (g.coarsen (reached settings r g)).graph := by
  induction r, g using round_induction settings with
  | zero g => exact (graph_coarsen_singletons g).symm
  | stop r g h => rw [(levels_of_none h _).2, reached_of_none h, graph_coarsen_singletons]
  | step r g a h ih =>
    rw [(rounds_of_some h r).2.1, ih, reached_of_some h,
      graph_coarsen_pullBack (valid_of_next? h) (valid_reached settings r _)]

end Hierarchy

/-! ## The results -/

open Hierarchy

variable {settings : Settings} {g : CallGraph} {a : Assignment} {p : SortedMap String String}

theorem detect_eq (settings : Settings) (g : CallGraph) : detect settings g
    = .ofHierarchy g (rounds settings settings.maxLevels g)
      (reached settings settings.maxLevels g) := by
  rw [detect, ofGraph_eq_rounds, flatten_rounds]

theorem assignment_detect (settings : Settings) (g : CallGraph) :
    (detect settings g).assignment = toNames g (reached settings settings.maxLevels g) := by
  rw [detect_eq]
  rfl

/-- The partition that detection writes down is read back as it was. -/
theorem ofNames_assignment (h : Hierarchy) (ha : a.Valid g.vertexCount) :
    Assignment.ofNames g (Detection.ofHierarchy g h a).assignment = .ok a := ofNames_toNames ha

theorem ofNames_detect (settings : Settings) (g : CallGraph) :
    Assignment.ofNames g (detect settings g).assignment
      = .ok (reached settings settings.maxLevels g) := by
  rw [detect_eq]
  exact ofNames_assignment _ (valid_reached settings _ g)

/-- The partition found from the communities of a prior partition. -/
def mergedFrom (settings : Settings) (g : CallGraph) (a : Assignment) : Assignment :=
  (g.coarsen a).pullBack g (reached settings settings.maxLevels (g.coarsen a).graph)

/-- Detection from the communities of a prior partition. -/
def continued (settings : Settings) (g : CallGraph) (a : Assignment) : Detection :=
  .ofHierarchy g (rounds settings settings.maxLevels (g.coarsen a).graph) (mergedFrom settings g a)

theorem canonical_mergedFrom (settings : Settings) (h : Canonical g a) :
    Canonical g (mergedFrom settings g a) :=
  canonical_pullBack h (canonical_reached settings _ _)

theorem redetect_eq (settings : Settings) (h : Assignment.ofNames g p = .ok a) :
    redetect settings g p = .ok (continued settings g (a.canonicalize g.linkView)) := by
  have hsize : (a.canonicalize g.linkView).size = g.vertexCount :=
    (size_canonicalize _ _).trans (ofNames_eq_ok_iff.mp h).1.1
  rw [redetect, h]
  simp only [bind, Except.bind, coarsen?_eq hsize, flatten_rounds, ofGraph_eq_rounds]
  rfl

/-- A prior partition is accepted when it fits the graph. -/
theorem exists_redetect_iff (settings : Settings) (g : CallGraph) (p : SortedMap String String) :
    (∃ d, redetect settings g p = .ok d) ↔ ∃ a, Assignment.ofNames g p = .ok a := by
  constructor
  · rintro ⟨d, hd⟩
    obtain ⟨a, ha, -⟩ := bind_eq_ok_iff.mp hd
    exact ⟨a, ha⟩
  · rintro ⟨a, ha⟩
    exact ⟨_, redetect_eq settings ha⟩

/-- **Going on from a partition that fits never fails**, goes on from its canonical form, and writes
down what is read back. -/
theorem redetect_spec (settings : Settings) (h : Assignment.ofNames g p = .ok a) :
    ∃ c, Canonical g c ∧ SameGroups a c ∧ redetect settings g p = .ok (continued settings g c)
      ∧ Assignment.ofNames g (continued settings g c).assignment
        = .ok (mergedFrom settings g c) := by
  have hsize := (ofNames_eq_ok_iff.mp h).1.1
  have hcanonical := canonical_canonicalize (g := g) hsize
  exact ⟨_, hcanonical, sameGroups_canonicalize hsize, redetect_eq settings h,
    ofNames_assignment _ (canonical_mergedFrom settings hcanonical).valid⟩

/-! ## A small graph -/

/-- A square of heavy sides and light diagonals.  Its first round merges `a` with `b` and `c` with
`d`, its second one the two pairs. -/
def CallGraph.square : CallGraph :=
  .ofArcs ⟨["a", "b", "c", "d"], by decide⟩
    [⟨0, 1, 2⟩, ⟨2, 3, 2⟩, ⟨0, 2, 2⟩, ⟨1, 3, 2⟩, ⟨0, 3, 1⟩, ⟨1, 2, 1⟩]

end CallCommunities
