import CallCommunities.Proofs.Hierarchy.Connectivity
import CallCommunities.Proofs.Hierarchy.Enumeration
import CallCommunities.Proofs.Hierarchy.Identifiers
import CallCommunities.Proofs.Partition.Gains
import CallCommunities.Proofs.Partition.Search

/-!
# Proofs/Hierarchy/ConnectedParts — what splitting finds

Splitting gives two vertices one label **exactly when a path leads from one to the other through vertices
of their community** (`pathInside_iff_joined`).  These paths are all that it looks at: partitions that
are joined alike are split alike (`refine_eq_of_joined_iff`).  So the parts do not fall apart when they are
split again, the labels of the communities do not matter, and neither does the order of the vertices
(`toNames_refine_of_groupAlike`).

Every community holds a part, so there are as many parts as communities only when **every community is
one part** (`isConnected_iff`).
-/

namespace CallCommunities

open Assignment CallGraph Finset

/-- Whether a path leads from `u` to `v`, direction ignored, all of whose vertices are in the community
of `u`. -/
def PathInside (g : CallGraph) (a : Assignment) (u v : ℕ) : Prop :=
  ∃ p : g.skeleton.Path u v, ∀ w ∈ p.1.support, a.labelOf w = a.labelOf u

variable {g h : CallGraph} {a b : Assignment} {u v : ℕ}

/-! ## Paths -/

theorem joined_of_walk : ∀ {u v : ℕ} (p : g.skeleton.Walk u v),
    (∀ w ∈ p.support, a.labelOf w = a.labelOf u) → Joined g.linkView a u v
  | u, _, .nil, _ => .refl u
  | u, v, .cons (v := w) hadj p, hinside => by
    rw [SimpleGraph.Walk.support_cons, List.forall_mem_cons] at hinside
    have hw : a.labelOf w = a.labelOf u := hinside.2 w p.start_mem_support
    have hfirst : Joined g.linkView a u w := .step (.refl u) (touching_iff_adj.mpr ⟨hadj, hw.symm⟩)
    exact hfirst.trans (joined_of_walk p fun x hx => (hinside.2 x hx).trans hw.symm)

theorem exists_walk_of_joined (hjoin : Joined g.linkView a u v) :
    ∃ p : g.skeleton.Walk u v, ∀ w ∈ p.support, a.labelOf w = a.labelOf u := by
  induction hjoin with
  | refl => exact ⟨.nil, by simp⟩
  | @step v w hpath htouch ih =>
    obtain ⟨p, hinside⟩ := ih
    obtain ⟨hadj, hlabel⟩ := touching_iff_adj.mp htouch
    refine ⟨p.concat hadj, fun x hx => ?_⟩
    rw [SimpleGraph.Walk.support_concat, List.mem_append, List.mem_singleton] at hx
    rcases hx with hx | rfl
    · exact hinside x hx
    · exact (hpath.labelOf_eq.trans hlabel).symm

/-- **Vertices are joined by paths inside a community.** -/
theorem pathInside_iff_joined : PathInside g a u v ↔ Joined g.linkView a u v := by
  constructor
  · rintro ⟨p, hinside⟩
    exact joined_of_walk p.1 hinside
  · intro hjoin
    obtain ⟨p, hinside⟩ := exists_walk_of_joined hjoin
    exact ⟨p.toPath, fun w hw => hinside w (p.support_toPath_subset_support hw)⟩

/-! ## What the parts depend on -/

/-- **The paths inside communities decide the parts.** -/
theorem refine_eq_of_joined_iff (hjoin : ∀ u < g.vertexCount, ∀ v < g.vertexCount,
    (Joined g.linkView a u v ↔ Joined g.linkView b u v)) :
    a.refine g.linkView = b.refine g.linkView := by
  have hsize := (valid_refine g a).1
  refine (canonical_refine g a).ext_sameGroups (canonical_refine g b)
    ⟨hsize.trans (valid_refine g b).1.symm, fun u v hu hv => ?_⟩
  rw [hsize] at hu hv
  rw [labelOf_refine_eq_iff hu hv, labelOf_refine_eq_iff hu hv]
  exact hjoin u hu v hv

/-- Communities are split alike under all labels. -/
theorem refine_congr (hs : a.size = g.vertexCount) (hsame : SameGroups a b) :
    a.refine g.linkView = b.refine g.linkView :=
  refine_eq_of_joined_iff fun _ _ _ _ =>
    ⟨Joined.of_merges hsame.merges hs, Joined.of_merges hsame.symm.merges (hsame.1 ▸ hs)⟩

/-- **Parts are not split again.** -/
theorem refine_refine (ha : a.Valid g.vertexCount) :
    (a.refine g.linkView).refine g.linkView = a.refine g.linkView := by
  refine refine_eq_of_joined_iff fun u hu v hv => ⟨?_, fun hjoin => ?_⟩
  · exact Joined.of_merges (merges_refine ha) (valid_refine g a).1
  · exact joinedGroups_refine g a u hu v hv ((labelOf_refine_eq_iff hu hv).mpr hjoin)

/-- No name in a part comes before the one it is labelled by. -/
theorem name_labelOf_refine_le (hv : v < g.vertexCount) (hjoin : Joined g.linkView a v u) :
    g.name ((a.refine g.linkView).labelOf v) ≤ g.name u := by
  have hu := hjoin.lt hv
  rw [(labelOf_refine_eq_iff hv hu).mpr hjoin]
  exact (canonical_refine g a).name_labelOf_le hu

/-- **By name, the parts depend on the names and the calls between them, and on who shares a community.** -/
theorem toNames_refine_of_groupAlike (hH : Holds g h) (hback : Holds h g)
    (ha : a.Valid g.vertexCount) (hb : b.Valid h.vertexCount)
    (halike : GroupAlike g (toNames g a) (toNames h b)) :
    toNames h (b.refine h.linkView) = toNames g (a.refine g.linkView) := by
  set a' := a.spread (g.counterpart h) g h
  have ha' : a'.Valid h.vertexCount := hH.embeds.valid_spread ha
  have hnames : toNames h a' = toNames g a := hH.toNames_spread hback ha
  have hsame : SameGroups a' b := by
    refine ⟨ha'.1.trans hb.1.symm, fun x y hx hy => ?_⟩
    rw [ha'.1] at hx hy
    rw [← get?_toNames_eq_iff ha' hx hy, ← get?_toNames_eq_iff hb hx hy, hnames]
    exact halike _ (hback.mem _ (name_mem hx)) _ (hback.mem _ (name_mem hy))
  rw [← refine_congr ha'.1 hsame]
  exact hH.toNames_refine hback ha ha' hnames

/-! ## As many parts as communities -/

/-- **There are as many parts as communities only when every community is one part.** -/
theorem isConnected_iff (ha : a.Valid g.vertexCount) :
    a.isConnected g.linkView = true ↔ JoinedGroups g a := by
  -- A part lies in one community, so the labels of the parts lead to all communities.
  set part := (a.refine g.linkView).labelOf
  have hcommunity : ∀ v < g.vertexCount, a.labelOf (part v) = a.labelOf v := fun v hv =>
    (joined_refine a hv).labelOf_eq.symm
  have himage : (range g.vertexCount).image a.labelOf
      = ((range g.vertexCount).image part).image a.labelOf := by
    rw [image_image]
    exact image_congr fun v hv => (hcommunity v (mem_range.mp hv)).symm
  rw [isConnected, decide_eq_true_iff, (valid_refine g a).communityCount_eq, ha.communityCount_eq,
    himage, eq_comm, card_image_iff]
  constructor
  · intro hinj u hu v hv huv
    have hmem : ∀ w < g.vertexCount, part w ∈ (range g.vertexCount).image part := fun w hw =>
      mem_image_of_mem part (mem_range.mpr hw)
    refine (labelOf_refine_eq_iff hu hv).mp (hinj (hmem u hu) (hmem v hv) ?_)
    rw [hcommunity u hu, hcommunity v hv, huv]
  · intro hjoin x hx y hy hxy
    obtain ⟨u, hu, rfl⟩ := mem_image.mp hx
    obtain ⟨v, hv, rfl⟩ := mem_image.mp hy
    rw [mem_range] at hu hv
    rw [hcommunity u hu, hcommunity v hv] at hxy
    exact (labelOf_refine_eq_iff hu hv).mpr (hjoin u hu v hv hxy)

/-- **Splitting finds the connected parts of the communities, exactly.**  Two vertices get one label
exactly when a path leads from one to the other through vertices of their community, and the label is
the first of these by name; a search labels them the same.  So what has been split is not split again,
and what is written down is the same for any graph with the same names and calls, whatever the order of
its vertices, and any partition with the same groups, whatever its labels.  And as many parts as
communities means that every community is connected. -/
theorem connected_parts (g : CallGraph) {a : Assignment} (ha : a.Valid g.vertexCount) :
    (∀ u < g.vertexCount, ∀ v < g.vertexCount,
      ((a.refine g.linkView).labelOf u = (a.refine g.linkView).labelOf v ↔ PathInside g a u v))
    ∧ (∀ v < g.vertexCount, PathInside g a v ((a.refine g.linkView).labelOf v)
      ∧ ∀ u, PathInside g a v u → g.name ((a.refine g.linkView).labelOf v) ≤ g.name u)
    ∧ a.search g.linkView = a.refine g.linkView
    ∧ (a.refine g.linkView).refine g.linkView = a.refine g.linkView
    ∧ (∀ (h : CallGraph) (b : Assignment), Holds g h → Holds h g → b.Valid h.vertexCount →
      GroupAlike g (toNames g a) (toNames h b) →
      toNames h (b.refine h.linkView) = toNames g (a.refine g.linkView))
    ∧ (a.isConnected g.linkView = true ↔ ConnectedGroups g a) := by
  simp only [pathInside_iff_joined]
  refine ⟨fun u hu v hv => labelOf_refine_eq_iff hu hv, fun v hv => ?_, search_eq_refine g a,
    refine_refine ha, fun h b hH hback hb halike => ?_, ?_⟩
  · exact ⟨joined_refine a hv, fun u => name_labelOf_refine_le hv⟩
  · exact toNames_refine_of_groupAlike hH hback ha hb halike
  · rw [isConnected_iff ha, connectedGroups_iff ha]

/-- The tadpole, numbered from the tail on. -/
def CallGraph.tadpoleFromTail : CallGraph :=
  .ofArcs ⟨["d", "b", "a", "c"], by decide⟩
    [⟨3, 2, 2⟩, ⟨2, 1, 2⟩, ⟨1, 3, 2⟩, ⟨1, 0, 2⟩, ⟨0, 1, 1⟩, ⟨0, 0, 2⟩]

/-- Without `b`, which is in a community of its own, the tail is not connected to the rest. -/
theorem connected_parts_tadpole :
    Assignment.Valid tadpole.vertexCount ⟨#[3, 3, 0, 3]⟩
    ∧ (⟨#[3, 3, 0, 3]⟩ : Assignment).refine tadpole.linkView = ⟨#[1, 1, 2, 3]⟩
    ∧ PathInside tadpole ⟨#[3, 3, 0, 3]⟩ 0 1 ∧ ¬ PathInside tadpole ⟨#[3, 3, 0, 3]⟩ 0 3
    ∧ (⟨#[3, 3, 0, 3]⟩ : Assignment).search tadpole.linkView = ⟨#[1, 1, 2, 3]⟩
    ∧ (⟨#[1, 1, 2, 3]⟩ : Assignment).refine tadpole.linkView = ⟨#[1, 1, 2, 3]⟩
    ∧ toNames tadpoleFromTail ((⟨#[1, 0, 1, 1]⟩ : Assignment).refine tadpoleFromTail.linkView)
      = toNames tadpole ⟨#[1, 1, 2, 3]⟩
    ∧ ¬ ConnectedGroups tadpole ⟨#[3, 3, 0, 3]⟩ := by
  have hvalid : Assignment.Valid tadpole.vertexCount ⟨#[3, 3, 0, 3]⟩ := ⟨rfl, by decide +kernel⟩
  have hparts : (⟨#[3, 3, 0, 3]⟩ : Assignment).refine tadpole.linkView = ⟨#[1, 1, 2, 3]⟩ := by
    decide +kernel
  have hfalls : (⟨#[3, 3, 0, 3]⟩ : Assignment).isConnected tadpole.linkView = false := by
    decide +kernel
  obtain ⟨hpath, -, hsearch, hagain, hnames, hconnected⟩ := connected_parts tadpole hvalid
  rw [hparts] at hpath hsearch hagain hnames
  refine ⟨hvalid, hparts, ?_, ?_, hsearch, hagain, ?_, ?_⟩
  · exact (hpath 0 (by decide) 1 (by decide)).mp (by decide)
  · exact (hpath 0 (by decide) 3 (by decide)).not.mp (by decide)
  · exact hnames tadpoleFromTail ⟨#[1, 0, 1, 1]⟩ ⟨by decide, by decide +kernel⟩
      ⟨by decide, by decide +kernel⟩ ⟨rfl, by decide +kernel⟩ (by decide +kernel)
  · exact hconnected.not.mp (by rw [hfalls]; exact Bool.false_ne_true)

end CallCommunities
