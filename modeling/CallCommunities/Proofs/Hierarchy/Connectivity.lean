import CallCommunities.Proofs.Hierarchy.Reached
import Mathlib.Combinatorics.SimpleGraph.Connectivity.Connected

/-!
# Proofs/Hierarchy/Connectivity — no community falls apart

A round that splits its communities merges connected parts only, but connected **in the graph of
that round**, whose vertices are merged sets themselves.  `joinedGroups_pullBack` carries this down:
a path of coarse vertices becomes a path of vertices, for two coarse vertices that share calls hold
two vertices that do, and inside a coarse vertex the paths are there already.

`connectedGroups_iff` turns the paths into connectedness of the induced subgraphs.
-/

namespace CallCommunities

open Assignment CallGraph Hierarchy

/-- The graph of who shares calls with whom. -/
def CallGraph.skeleton (g : CallGraph) : SimpleGraph ℕ where
  Adj u v := u ≠ v ∧ (0 < g.weight u v ∨ 0 < g.weight v u)
  symm := ⟨fun _ _ h => ⟨h.1.symm, h.2.symm⟩⟩
  loopless := ⟨fun _ h => h.1 rfl⟩

/-- Whether every community induces a connected subgraph. -/
def ConnectedGroups (g : CallGraph) (a : Assignment) : Prop :=
  ∀ c ∈ a.identifiers, (g.skeleton.induce {v | v ∈ a.members c}).Connected

/-- Whether a path inside the community leads from any member to any other. -/
def JoinedGroups (g : CallGraph) (a : Assignment) : Prop :=
  ∀ u < g.vertexCount, ∀ v < g.vertexCount, a.labelOf u = a.labelOf v → Joined g.linkView a u v

variable {settings : Settings} {g : CallGraph} {a b : Assignment} {u v x y c : ℕ}

/-! ## Paths and connectedness -/

theorem touching_iff_adj :
    Touching g.linkView a u v ↔ g.skeleton.Adj u v ∧ a.labelOf u = a.labelOf v := by
  rw [touching_iff, ne_comm, linkWeight, Nat.add_pos_iff_pos_or_pos]
  rfl

theorem joined_of_reachable {s t : {v | v ∈ a.members c}}
    (h : (g.skeleton.induce {v | v ∈ a.members c}).Reachable s t) : Joined g.linkView a s t := by
  rw [SimpleGraph.reachable_iff_reflTransGen] at h
  induction h with
  | refl => exact .refl _
  | @tail t w _ hadj ih =>
    have hlabel := (mem_members.mp t.2).2.trans (mem_members.mp w.2).2.symm
    exact ih.step (touching_iff_adj.mpr ⟨hadj, hlabel⟩)

theorem reachable_of_joined (hu : u ∈ a.members c) (hs : a.size = g.vertexCount)
    (h : Joined g.linkView a u v) : ∃ hv : v ∈ a.members c,
      (g.skeleton.induce {v | v ∈ a.members c}).Reachable ⟨u, hu⟩ ⟨v, hv⟩ := by
  induction h with
  | refl => exact ⟨hu, .refl _⟩
  | @step v w _ htouch ih =>
    obtain ⟨hv, hreach⟩ := ih
    have hw : w ∈ a.members c := mem_members.mpr
      ⟨hs ▸ htouch.lt, (touching_iff_adj.mp htouch).2 ▸ (mem_members.mp hv).2⟩
    have hadj : (g.skeleton.induce {v | v ∈ a.members c}).Adj ⟨v, hv⟩ ⟨w, hw⟩ :=
      (touching_iff_adj.mp htouch).1
    exact ⟨hw, hreach.trans hadj.reachable⟩

/-- **Paths inside the communities make them connected, and nothing else does.** -/
theorem connectedGroups_iff (h : a.Valid g.vertexCount) :
    ConnectedGroups g a ↔ JoinedGroups g a := by
  constructor
  · intro hconn u hu v hv huv
    have hmem : ∀ w, w < g.vertexCount → a.labelOf w = a.labelOf v → w ∈ a.members (a.labelOf v) :=
      fun w hw hlabel => mem_members.mpr ⟨h.1.symm ▸ hw, hlabel⟩
    have hc := hconn (a.labelOf v) (h.mem_identifiers.mpr ⟨v, hv, rfl⟩)
    exact joined_of_reachable (hc.preconnected ⟨u, hmem u hu huv⟩ ⟨v, hmem v hv rfl⟩)
  · intro hjoin c hc
    obtain ⟨r, hr, rfl⟩ := h.mem_identifiers.mp hc
    have hmem : r ∈ a.members (a.labelOf r) := mem_members.mpr ⟨h.1.symm ▸ hr, rfl⟩
    refine SimpleGraph.connected_iff_exists_forall_reachable _ |>.mpr ⟨⟨r, hmem⟩, fun w => ?_⟩
    obtain ⟨hw, hlabel⟩ := mem_members.mp w.2
    obtain ⟨_, hreach⟩ := reachable_of_joined hmem h.1
      (hjoin r hr w (h.1 ▸ hw) hlabel.symm)
    exact hreach

/-! ## Down through a round -/

theorem joinedGroups_singletons (g : CallGraph) :
    JoinedGroups g (singletons g.vertexCount) := by
  intro u _ v _ huv
  rw [labelOf_singletons, labelOf_singletons] at huv
  exact huv ▸ .refl u

/-- The connected parts are connected. -/
theorem joinedGroups_refine (g : CallGraph) (a : Assignment) :
    JoinedGroups g (a.refine g.linkView) := by
  intro u hu v hv huv
  have hjoin := (labelOf_refine_eq_iff hu hv).mp huv
  clear huv hv
  induction hjoin with
  | refl => exact .refl u
  | step _ htouch ih =>
    have hadj := (touching_iff_adj.mp htouch).1
    exact ih.step (touching_iff_adj.mpr ⟨hadj, htouch.labelOf_refine_eq⟩)

theorem JoinedGroups.of_sameGroups (h : JoinedGroups g a) (hs : a.size = g.vertexCount)
    (hsame : SameGroups a b) : JoinedGroups g b := by
  intro u hu v hv huv
  have hlabel := (hsame.2 u v (hs ▸ hu) (hs ▸ hv)).mpr huv
  exact Joined.of_merges hsame.merges hs (h u hu v hv hlabel)

/-- Coarse vertices that share calls hold vertices that do. -/
theorem exists_linkWeight_pos (h : a.Valid g.vertexCount)
    (hpos : 0 < (g.coarsen a).graph.linkWeight x y) :
    ∃ s ∈ g.block a x, ∃ t ∈ g.block a y, 0 < g.linkWeight s t := by
  rw [linkWeight_coarsen h] at hpos
  obtain ⟨s, hs, hsum⟩ := Finset.exists_ne_zero_of_sum_ne_zero hpos.ne'
  obtain ⟨t, ht, hlink⟩ := Finset.exists_ne_zero_of_sum_ne_zero hsum
  exact ⟨s, hs, t, ht, Nat.pos_of_ne_zero hlink⟩

section PullBack

variable (h : a.Valid g.vertexCount) (hb : b.Valid (g.coarsen a).graph.vertexCount)
  (hjoin : JoinedGroups g a)
include h hb hjoin

theorem joined_pullBack_of_block (hu : u ∈ g.block a x) (hv : v ∈ g.block a x) :
    Joined g.linkView ((g.coarsen a).pullBack g b) u v := by
  obtain ⟨hu, hux⟩ := mem_block.mp hu
  obtain ⟨hv, hvx⟩ := mem_block.mp hv
  have hlabel := (placeOf_eq_placeOf_iff hu hv).mp (hux.trans hvx.symm)
  exact Joined.of_merges (merges_pullBack h hb) h.1 (hjoin u hu v hv hlabel)

/-- **A path of coarse vertices becomes a path of vertices.** -/
theorem joined_pullBack (hxy : Joined (g.coarsen a).graph.linkView b x y) :
    ∀ u ∈ g.block a x, ∀ v ∈ g.block a y,
      Joined g.linkView ((g.coarsen a).pullBack g b) u v := by
  induction hxy with
  | refl => exact fun u hu v hv => joined_pullBack_of_block h hb hjoin hu hv
  | @step y z _ htouch ih =>
    intro u hu v hv
    obtain ⟨⟨hne, hpos⟩, hlabel⟩ := touching_iff.mp htouch
    -- The path goes on over calls that leave the block at `s` and enter the next one at `t`.
    obtain ⟨s, hs, t, ht, hlink⟩ := exists_linkWeight_pos h hpos
    obtain ⟨hslt, hsplace⟩ := mem_block.mp hs
    obtain ⟨htlt, htplace⟩ := mem_block.mp ht
    have hst : t ≠ s := fun heq => hne (by rw [← htplace, heq, hsplace])
    have htouch' : Touching g.linkView ((g.coarsen a).pullBack g b) s t := by
      rw [touching_iff, labelOf_pullBack_eq_iff h hb hslt htlt, hsplace, htplace]
      exact ⟨⟨hst, hlink⟩, hlabel⟩
    exact ((ih u hu s hs).step htouch').trans (joined_pullBack_of_block h hb hjoin ht hv)

/-- **Connected communities of connected communities are connected.** -/
theorem joinedGroups_pullBack (hcoarse : JoinedGroups (g.coarsen a).graph b) :
    JoinedGroups g ((g.coarsen a).pullBack g b) := by
  intro u hu v hv huv
  rw [labelOf_pullBack_eq_iff h hb hu hv] at huv
  have hxy := hcoarse _ (placeOf_lt_vertexCount h hu) _ (placeOf_lt_vertexCount h hv) huv
  exact joined_pullBack h hb hjoin hxy u (mem_block.mpr ⟨hu, rfl⟩) v (mem_block.mpr ⟨hv, rfl⟩)

end PullBack

/-! ## Down through all rounds -/

theorem joinedGroups_of_next? (hr : settings.refine = true) (h : next? settings g = some a) :
    JoinedGroups g a := by
  obtain ⟨-, rfl⟩ := next?_eq_some_iff.mp h
  rw [partitionOf, if_pos hr]
  exact joinedGroups_refine g _

theorem joinedGroups_reached (hr : settings.refine = true) (r : ℕ) (g : CallGraph) :
    JoinedGroups g (reached settings r g) := by
  induction r, g using round_induction settings with
  | zero g => exact joinedGroups_singletons g
  | stop r g h =>
    rw [reached_of_none h]
    exact joinedGroups_singletons g
  | step r g a h ih =>
    rw [reached_of_some h]
    exact joinedGroups_pullBack (valid_of_next? h) (valid_reached settings r _)
      (joinedGroups_of_next? hr h) ih

/-- **With splitting on, every community is connected**, wherever the run stops; and going on from
connected communities keeps them connected. -/
theorem communities_connected (settings : Settings) (hr : settings.refine = true) (g : CallGraph) :
    (∃ a, Assignment.ofNames g (detect settings g).assignment = .ok a ∧ ConnectedGroups g a)
    ∧ ∀ (prior : SortedMap String String) (a : Assignment), Assignment.ofNames g prior = .ok a →
      ConnectedGroups g a → ∃ d b, redetect settings g prior = .ok d
        ∧ Assignment.ofNames g d.assignment = .ok b ∧ ConnectedGroups g b := by
  constructor
  · have hvalid := valid_reached settings settings.maxLevels g
    exact ⟨_, ofNames_detect settings g,
      (connectedGroups_iff hvalid).mpr (joinedGroups_reached hr _ g)⟩
  · intro prior a hprior hconn
    have hvalid := (ofNames_eq_ok_iff.mp hprior).1
    obtain ⟨c, hc, hsame, hd, hread⟩ := redetect_spec settings hprior
    have hjoin := ((connectedGroups_iff hvalid).mp hconn).of_sameGroups hvalid.1 hsame
    refine ⟨_, _, hd, hread, (connectedGroups_iff (canonical_mergedFrom settings hc).valid).mpr ?_⟩
    exact joinedGroups_pullBack hc.valid (valid_reached settings _ _) hjoin
      (joinedGroups_reached hr _ _)

theorem communities_connected_square :
    Settings.default.refine = true
    ∧ Assignment.ofNames square (toNames square ⟨#[0, 0, 2, 2]⟩) = .ok ⟨#[0, 0, 2, 2]⟩
    ∧ ConnectedGroups square ⟨#[0, 0, 2, 2]⟩
    ∧ (∃ a, Assignment.ofNames square (detect .default square).assignment = .ok a
      ∧ ConnectedGroups square a)
    ∧ ∃ d b, redetect .default square (toNames square ⟨#[0, 0, 2, 2]⟩) = .ok d
      ∧ Assignment.ofNames square d.assignment = .ok b ∧ ConnectedGroups square b := by
  have hparts : (⟨#[0, 0, 2, 2]⟩ : Assignment).refine square.linkView = ⟨#[0, 0, 2, 2]⟩ := by
    decide +kernel
  have hvalid := valid_refine square ⟨#[0, 0, 2, 2]⟩
  have hjoin := joinedGroups_refine square ⟨#[0, 0, 2, 2]⟩
  rw [hparts] at hvalid hjoin
  have hprior : Assignment.ofNames square (toNames square ⟨#[0, 0, 2, 2]⟩) = .ok ⟨#[0, 0, 2, 2]⟩ :=
    ofNames_eq_ok_iff.mpr ⟨hvalid, rfl⟩
  have hconn := (connectedGroups_iff hvalid).mpr hjoin
  obtain ⟨hdetect, hon⟩ := communities_connected .default rfl square
  exact ⟨rfl, hprior, hconn, hdetect, hon _ _ hprior hconn⟩

end CallCommunities
