import CallCommunities.Proofs.Hierarchy.Connectivity
import CallCommunities.Proofs.Hierarchy.Quotients

/-!
# Proofs/Hierarchy/Components — communities never cross components

Without splitting, a community may fall apart: a vertex that held two parts together moves on, and the
parts keep their common label (`strands`).  What moving does keep is weaker.  **Every vertex is labelled
by a vertex of its own component** (`LabelledWithin`): it only ever takes the label of a neighbour, which
is in its component, as is the vertex that the neighbour is labelled by (`labelledWithin_visit`).

So the communities of a round keep to components, whatever labels they go by (`WithinComponents`).
Coarse vertices that share calls hold vertices that do, so components of the coarse graph stand for
components of the graph (`reachable_of_coarse`), and this carries down through all rounds.
-/

namespace CallCommunities

open Assignment CallGraph Hierarchy

/-- Whether the members of every community lie in one component of the graph. -/
def WithinComponents (g : CallGraph) (a : Assignment) : Prop :=
  ∀ u < g.vertexCount, ∀ v < g.vertexCount, a.labelOf u = a.labelOf v → g.skeleton.Reachable u v

/-- Whether every vertex is labelled by a vertex of its own component. -/
def LabelledWithin (g : CallGraph) (a : Assignment) : Prop :=
  ∀ v < g.vertexCount, g.skeleton.Reachable v (a.labelOf v)

variable {settings : Settings} {g : CallGraph} {a b : Assignment} {u v x y : ℕ}

/-! ## Components -/

theorem reachable_of_linkWeight_pos (h : 0 < g.linkWeight u v) : g.skeleton.Reachable u v := by
  rcases eq_or_ne u v with rfl | hne
  · exact .refl u
  · rw [linkWeight, Nat.add_pos_iff_pos_or_pos] at h
    exact SimpleGraph.Adj.reachable (G := g.skeleton) ⟨hne, h⟩

theorem reachable_of_joined_view (h : Joined g.linkView a u v) : g.skeleton.Reachable u v := by
  induction h with
  | refl => exact .refl u
  | step _ htouch ih => exact ih.trans (touching_iff_adj.mp htouch).1.reachable

theorem LabelledWithin.withinComponents (h : LabelledWithin g a) : WithinComponents g a := by
  intro u hu v hv huv
  have hu := h u hu
  rw [huv] at hu
  exact hu.trans (h v hv).symm

theorem withinComponents_singletons (g : CallGraph) :
    WithinComponents g (singletons g.vertexCount) := by
  intro u _ v _ huv
  rw [labelOf_singletons, labelOf_singletons] at huv
  exact huv ▸ .refl u

theorem WithinComponents.of_sameGroups (h : WithinComponents g a) (hs : a.size = g.vertexCount)
    (hsame : SameGroups a b) : WithinComponents g b :=
  fun u hu v hv huv => h u hu v hv ((hsame.2 u v (hs ▸ hu) (hs ▸ hv)).mpr huv)

/-- Splitting a partition keeps to components, whatever the partition. -/
theorem withinComponents_refine (g : CallGraph) (a : Assignment) :
    WithinComponents g (a.refine g.linkView) :=
  fun _ hu _ hv huv => reachable_of_joined_view ((labelOf_refine_eq_iff hu hv).mp huv)

/-! ## Local moving -/

/-- **A vertex that moves takes a label of its component.** -/
theorem labelledWithin_visit {s : Moving} (hs : s.Sound g) (hv : v < g.vertexCount)
    (h : LabelledWithin g s.assignment) :
    LabelledWithin g (Moving.visit g.linkView s v).assignment := by
  rcases hs.visit_cases hv with ⟨hstay, -⟩ | ⟨c, hbest, -, hmove⟩
  · rwa [hstay]
  · have hreach : g.skeleton.Reachable v c := by
      rcases hbest.faces with rfl | ⟨u, -, hpos, rfl⟩
      · exact h v hv
      · exact (reachable_of_linkWeight_pos hpos).trans (h u (lt_of_linkWeight_pos hpos))
    intro u hu
    rw [hmove, Moving.moved, labelOf_relabel _ (hs.valid.1.symm ▸ hv)]
    split
    · rename_i heq
      exact heq ▸ hreach
    · exact h u hu

/-- Local moving keeps to components. -/
theorem withinComponents_pass (settings : Settings) (g : CallGraph) :
    WithinComponents g (pass settings g).assignment := by
  refine LabelledWithin.withinComponents ?_
  refine LocalMoving.run_induction (fun s hs v hv h => labelledWithin_visit hs hv h)
    (valid_singletons _) (fun v _ => ?_) _
  rw [labelOf_singletons]

theorem withinComponents_of_next? (h : next? settings g = some a) : WithinComponents g a := by
  obtain ⟨-, rfl⟩ := next?_eq_some_iff.mp h
  have hsize := (valid_pass settings g).1
  unfold partitionOf
  split
  · exact withinComponents_refine g _
  · exact (withinComponents_pass settings g).of_sameGroups hsize (sameGroups_canonicalize hsize)

/-! ## Down through a round -/

/-- **Components of the coarse graph stand for components of the graph.** -/
theorem reachable_of_coarse (h : a.Valid g.vertexCount) (hwithin : WithinComponents g a)
    (hxy : (g.coarsen a).graph.skeleton.Reachable x y) :
    ∀ u ∈ g.block a x, ∀ v ∈ g.block a y, g.skeleton.Reachable u v := by
  have hblock : ∀ z, ∀ u ∈ g.block a z, ∀ v ∈ g.block a z, g.skeleton.Reachable u v := by
    intro z u hu v hv
    obtain ⟨hu, huz⟩ := mem_block.mp hu
    obtain ⟨hv, hvz⟩ := mem_block.mp hv
    exact hwithin u hu v hv ((placeOf_eq_placeOf_iff hu hv).mp (huz.trans hvz.symm))
  rw [SimpleGraph.reachable_iff_reflTransGen] at hxy
  induction hxy with
  | refl => exact hblock x
  | @tail y z _ hadj ih =>
    intro u hu v hv
    have hpos : 0 < (g.coarsen a).graph.linkWeight y z := by
      rw [linkWeight, Nat.add_pos_iff_pos_or_pos]
      exact hadj.2
    -- The way leaves the one block at `s` and enters the other at `t`.
    obtain ⟨s, hs, t, ht, hlink⟩ := exists_linkWeight_pos h hpos
    exact ((ih u hu s hs).trans (reachable_of_linkWeight_pos hlink)).trans (hblock z t ht v hv)

theorem withinComponents_pullBack (h : a.Valid g.vertexCount)
    (hb : b.Valid (g.coarsen a).graph.vertexCount) (hwithin : WithinComponents g a)
    (hcoarse : WithinComponents (g.coarsen a).graph b) :
    WithinComponents g ((g.coarsen a).pullBack g b) := by
  intro u hu v hv huv
  rw [labelOf_pullBack_eq_iff h hb hu hv] at huv
  have hxy := hcoarse _ (placeOf_lt_vertexCount h hu) _ (placeOf_lt_vertexCount h hv) huv
  exact reachable_of_coarse h hwithin hxy u (mem_block.mpr ⟨hu, rfl⟩) v (mem_block.mpr ⟨hv, rfl⟩)

/-! ## Down through all rounds -/

theorem withinComponents_reached (settings : Settings) (r : ℕ) (g : CallGraph) :
    WithinComponents g (reached settings r g) := by
  induction r, g using round_induction settings with
  | zero g => exact withinComponents_singletons g
  | stop r g h =>
    rw [reached_of_none h]
    exact withinComponents_singletons g
  | step r g a h ih =>
    rw [reached_of_some h]
    exact withinComponents_pullBack (valid_of_next? h) (valid_reached settings r _)
      (withinComponents_of_next? h) ih

theorem withinComponents_levels (settings : Settings) (r : ℕ) (g : CallGraph) :
    ∀ level ∈ (rounds settings r g).levels, WithinComponents level.graph level.assignment := by
  induction r, g using round_induction settings with
  | zero g => exact fun _ h => absurd h List.not_mem_nil
  | stop r g h =>
    rw [(levels_of_none h _).1]
    exact fun _ h => absurd h List.not_mem_nil
  | step r g a h ih =>
    rw [(rounds_of_some h r).1]
    exact List.forall_mem_cons.mpr ⟨withinComponents_of_next? h, ih⟩

/-- Two components.  In the second round the pairs of `a` and `i` join the pair of `e` that stands
between them, which then moves on to `b`. -/
def CallGraph.strands : CallGraph :=
  .ofArcs ⟨["a", "c", "i", "f", "d", "j", "g", "h", "e", "b"], by decide⟩
    [⟨0, 1, 1⟩, ⟨2, 3, 8⟩, ⟨4, 5, 19⟩, ⟨6, 7, 14⟩, ⟨8, 0, 1⟩, ⟨5, 8, 13⟩, ⟨4, 9, 18⟩, ⟨8, 2, 9⟩]

/-- The default settings, without splitting. -/
def Settings.unsplit : Settings := { Settings.default with refine := false }

/-- A path inside the communities leaves no set of vertices that touch no others. -/
theorem mem_of_joined {s : List ℕ} (hs : ∀ x ∈ s, ∀ y, Touching g.linkView a x y → y ∈ s)
    (hu : u ∈ s) (h : Joined g.linkView a u v) : v ∈ s := by
  induction h with
  | refl => exact hu
  | step _ htouch ih => exact hs _ ih _ htouch

/-- Without splitting, `a` and `i` stay together although nothing between them does. -/
theorem not_connectedGroups_strands :
    ¬ ConnectedGroups strands (reached .unsplit Settings.unsplit.maxLevels strands) := by
  have hreached : reached .unsplit Settings.unsplit.maxLevels strands
      = ⟨#[0, 0, 0, 0, 9, 9, 6, 6, 9, 9]⟩ := by decide +kernel
  have hcut : ∀ x ∈ [0, 1], ∀ y < strands.vertexCount, 0 < strands.linkWeight x y →
      (⟨#[0, 0, 0, 0, 9, 9, 6, 6, 9, 9]⟩ : Assignment).labelOf x
        = (⟨#[0, 0, 0, 0, 9, 9, 6, 6, 9, 9]⟩ : Assignment).labelOf y → y ∈ [0, 1] := by
    decide +kernel
  have hvalid := valid_reached .unsplit Settings.unsplit.maxLevels strands
  rw [hreached] at hvalid ⊢
  intro hconn
  have hjoin := (connectedGroups_iff hvalid).mp hconn 0 (by decide) 2 (by decide) rfl
  have hmem := mem_of_joined (s := [0, 1]) (fun x hx y htouch => ?_) (by simp) hjoin
  · exact absurd hmem (by decide)
  · obtain ⟨⟨-, hpos⟩, hlabel⟩ := touching_iff.mp htouch
    exact hcut x hx y (lt_of_linkWeight_pos hpos) hpos hlabel

/-- **Communities never cross components**, whether they are split or not and wherever the ceilings stop
the run.  Two vertices that are given one community lie in one component of the graph, its directions
ignored; so do, in the graph of every round, two vertices that the round merges, and in the first graph
two vertices that are together after any number of rounds.  But without splitting a community need not
be connected itself, not even where no ceiling was reached. -/
theorem communities_within_components :
    (∀ (settings : Settings) (g : CallGraph),
      (∀ u < g.vertexCount, ∀ v < g.vertexCount,
        (detect settings g).assignment.get? (g.name u)
          = (detect settings g).assignment.get? (g.name v) → g.skeleton.Reachable u v)
      ∧ (∀ level ∈ (ofGraph settings g).levels, WithinComponents level.graph level.assignment)
      ∧ ∀ i ≤ (ofGraph settings g).levels.length,
        WithinComponents g ((ofGraph settings g).assignmentAfter i))
    ∧ ∃ (settings : Settings) (g : CallGraph) (a : Assignment), settings.refine = false
      ∧ (detect settings g).warnings = []
      ∧ Assignment.ofNames g (detect settings g).assignment = .ok a ∧ ¬ ConnectedGroups g a := by
  constructor
  · intro settings g
    have hvalid := valid_reached settings settings.maxLevels g
    refine ⟨fun u hu v hv huv => ?_, withinComponents_levels settings _ g, fun i hi => ?_⟩
    · rw [assignment_detect, get?_toNames_eq_iff hvalid hu hv] at huv
      exact withinComponents_reached settings _ g u hu v hv huv
    · rw [ofGraph_eq_rounds, assignmentAfter_rounds settings g
        (hi.trans (length_levels_le settings _ g))]
      exact withinComponents_reached settings i g
  · exact ⟨.unsplit, strands, _, rfl, by decide +kernel, ofNames_detect _ _,
      not_connectedGroups_strands⟩

theorem communities_within_components_strands :
    ((detect .unsplit strands).assignment.get? (strands.name 0)
        = (detect .unsplit strands).assignment.get? (strands.name 2)
      ∧ strands.skeleton.Reachable 0 2)
    ∧ (∃ level ∈ (ofGraph .unsplit strands).levels, WithinComponents level.graph level.assignment)
    ∧ 1 ≤ (ofGraph .unsplit strands).levels.length
    ∧ WithinComponents strands ((ofGraph .unsplit strands).assignmentAfter 1) := by
  have htogether : (detect .unsplit strands).assignment.get? (strands.name 0)
      = (detect .unsplit strands).assignment.get? (strands.name 2) := by decide +kernel
  have hlength : 1 ≤ (ofGraph .unsplit strands).levels.length := by decide +kernel
  obtain ⟨level, hlevel⟩ := List.exists_mem_of_length_pos hlength
  obtain ⟨hnamed, hlevels, hafter⟩ := communities_within_components.1 .unsplit strands
  exact ⟨⟨htogether, hnamed 0 (by decide) 2 (by decide) htogether⟩,
    ⟨level, hlevel, hlevels level hlevel⟩, hlength, hafter 1 hlength⟩

end CallCommunities
