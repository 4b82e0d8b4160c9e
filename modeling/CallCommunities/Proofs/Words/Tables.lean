import CallCommunities.Partition.Modularity
import CallCommunities.Proofs.Graph.Built
import CallCommunities.Proofs.Words.Ledger

/-!
# Proofs/Words/Tables — the tables of a graph in words

Every table of a graph adds the weight of each arc to some cells, at most two of them: those of its two
ends for degrees, that of its pair of communities for a merged graph, and so on.  As a ledger each is
`ledgerOf keys arcs`, and its amounts are at most twice the total weight together.  **So the tables of a
graph of admitted total weight are exact in 64 bits** (`posts_ledgerOf`).  The degree sums of communities
add up degrees instead of arcs, and those too come to twice the total weight (`posts_communityLedger`).

Merging keeps the total weight, so the limit on what a builder accepts holds for all that is merged from
it (`Admitted.totalWeight_le`).
-/

namespace CallCommunities

open Finset Assignment CallGraph

/-! ## Admitted graphs -/

/-- A graph that a builder accepts, or one merged from it in any number of steps. -/
inductive CallGraph.Admitted : CallGraph → Prop
  | built {b : Builder} {g : CallGraph} (h : b.build = .ok g) : Admitted g
  | coarsened {g : CallGraph} {a : Assignment} (hg : Admitted g) (ha : a.Valid g.vertexCount) :
      Admitted (g.coarsen a).graph

theorem totalWeight_le_of_build {b : Builder} {g : CallGraph} (h : b.build = .ok g) :
    g.totalWeight ≤ maxTotalWeight := by
  obtain ⟨hle, rfl⟩ := Builder.build_eq_ok_iff.mp h
  rwa [Builder.totalWeight_graph]

/-- **Admitted graphs have at most `maxTotalWeight` calls.** -/
theorem CallGraph.Admitted.totalWeight_le {g : CallGraph} (h : g.Admitted) :
    g.totalWeight ≤ maxTotalWeight := by
  induction h with
  | built h => exact totalWeight_le_of_build h
  | coarsened _ ha ih => rwa [totalWeight_coarsen ha]

theorem two_mul_lt_size {n : ℕ} (h : n ≤ maxTotalWeight) : 2 * n < UInt64.size :=
  (Nat.mul_le_mul_left 2 h).trans_lt (by decide)

/-! ## Tables over arcs -/

section Ledger

variable {κ : Type} [DecidableEq κ] {keys : Arc → List κ} {arcs : List Arc} {f : κ → ℕ}

/-- The weight of every arc, added to the cells with the keys of the arc. -/
def ledgerOf (keys : Arc → List κ) (arcs : List Arc) : List (κ × ℕ) :=
  arcs.flatMap fun e => (keys e).map fun k => (k, e.weight)

theorem owed_ledgerOf (k : κ) (keys : Arc → List κ) (arcs : List Arc) :
    owed k (ledgerOf keys arcs)
      = sumOver (fun e => sumOver (fun x => if x = k then e.weight else 0) (keys e)) arcs := by
  rw [ledgerOf, owed_flatMap]
  exact sumOver_congr fun e _ => owed_map k _ _

omit [DecidableEq κ] in
theorem sum_ledgerOf_le (h : ∀ e, (keys e).length ≤ 2) (arcs : List Arc) :
    sumOver (·.2) (ledgerOf keys arcs) ≤ 2 * sumOver Arc.weight arcs := by
  induction arcs with
  | nil => exact le_rfl
  | cons e rest ih =>
    have hone : sumOver (·.2) ((keys e).map fun k => (k, e.weight)) = (keys e).length * e.weight := by
      rw [sumOver_map]
      induction keys e with
      | nil => simp
      | cons x rest ih => rw [sumOver_cons, ih, List.length_cons, Nat.succ_mul, Nat.add_comm]
    have hle := Nat.mul_le_mul_right e.weight (h e)
    rw [ledgerOf, List.flatMap_cons, sumOver_append, hone, sumOver_cons, Nat.mul_add]
    exact Nat.add_le_add hle ih

/-- **A table over the arcs of an admitted graph is exact in 64 bits.** -/
theorem posts_ledgerOf (hm : sumOver Arc.weight arcs ≤ maxTotalWeight)
    (hkeys : ∀ e, (keys e).length ≤ 2)
    (h : ∀ k, sumOver (fun e => sumOver (fun x => if x = k then e.weight else 0) (keys e)) arcs
      = f k) :
    Posts (ledgerOf keys arcs) f := by
  refine posts_of_lt ((sum_ledgerOf_le hkeys arcs).trans_lt (two_mul_lt_size hm)) fun k => ?_
  rw [owed_ledgerOf, h]

end Ledger

/-! ## The tables of a graph -/

namespace CallGraph

variable {g : CallGraph} {a : Assignment}

/-- What the arcs add to the total weight. -/
def totalLedger (g : CallGraph) : List (Unit × ℕ) := ledgerOf (fun _ => [()]) g.arcs

/-- What the arcs add to the degrees. -/
def degreeLedger (g : CallGraph) : List (ℕ × ℕ) := ledgerOf (fun e => [e.source, e.target]) g.arcs

/-- What the loops add to the weights of the loops. -/
def loopLedger (g : CallGraph) : List (ℕ × ℕ) :=
  ledgerOf (fun e => if e.source = e.target then [e.source] else []) g.arcs

/-- What the other arcs add to the links, in both directions. -/
def linkLedger (g : CallGraph) : List ((ℕ × ℕ) × ℕ) :=
  ledgerOf (fun e =>
    if e.source = e.target then [] else [(e.source, e.target), (e.target, e.source)]) g.arcs

/-- What the arcs add to the weights between communities. -/
def mergedLedger (g : CallGraph) (a : Assignment) : List ((ℕ × ℕ) × ℕ) :=
  ledgerOf (fun e => [((g.coarsen a).projection.getD e.source 0,
    (g.coarsen a).projection.getD e.target 0)]) g.arcs

/-- What the arcs inside communities add up to. -/
def insideLedger (g : CallGraph) (a : Assignment) : List (Unit × ℕ) :=
  ledgerOf (fun e => if a.labelOf e.source = a.labelOf e.target then [()] else []) g.arcs

variable (hm : g.totalWeight ≤ maxTotalWeight)
include hm

theorem posts_totalLedger : Posts g.totalLedger fun _ => g.totalWeight :=
  posts_ledgerOf hm (fun _ => by simp) fun _ => sumOver_congr fun e _ => by simp

/-- **Degrees are exact.** -/
theorem posts_degreeLedger : Posts g.degreeLedger g.degree := by
  refine posts_ledgerOf hm (fun _ => by simp) fun v => ?_
  rw [degree, ← sumOver_source, ← sumOver_target, ← sumOver_add]
  exact sumOver_congr fun e _ => by simp

theorem posts_loopLedger : Posts g.loopLedger g.loopWeight := by
  refine posts_ledgerOf hm (fun e => by split <;> simp) fun v => ?_
  rw [loopWeight, ← sumOver_between]
  refine sumOver_congr fun e _ => ?_
  by_cases hloop : e.source = e.target <;> simp [hloop, Prod.mk.injEq]
  grind

/-- **Links are exact**, each with the arcs of both directions. -/
theorem posts_linkLedger :
    Posts g.linkLedger fun p => if p.1 = p.2 then 0 else g.linkWeight p.1 p.2 := by
  refine posts_ledgerOf hm (fun e => by split <;> simp) fun ⟨x, y⟩ => ?_
  by_cases hxy : x = y
  · rw [if_pos hxy]
    refine sumOver_eq_zero fun e _ => ?_
    by_cases hloop : e.source = e.target <;> simp [hloop, Prod.mk.injEq]
    grind
  · rw [if_neg hxy, linkWeight, ← sumOver_between, ← sumOver_between, ← sumOver_add]
    refine sumOver_congr fun e _ => ?_
    simp only [Prod.mk.injEq]
    grind [sumOver]

/-- **The weights of a merged graph are exact.** -/
theorem posts_mergedLedger (ha : a.Valid g.vertexCount) :
    Posts (g.mergedLedger a) fun p => (g.coarsen a).graph.weight p.1 p.2 := by
  refine posts_ledgerOf hm (fun _ => by simp) fun ⟨x, y⟩ => ?_
  rw [weight_coarsen_eq_sumOver ha]
  exact sumOver_congr fun e _ => by simp

theorem posts_insideLedger (a : Assignment) :
    Posts (g.insideLedger a) fun _ => g.internalWeight a := by
  refine posts_ledgerOf hm (fun e => by split <;> simp) fun _ => ?_
  rw [internalWeight, sumOver_filter]
  refine sumOver_congr fun e _ => ?_
  by_cases he : a.labelOf e.source = a.labelOf e.target <;> simp [he]

end CallGraph

/-! ## The degree sums of communities -/

/-- What the degree of every vertex adds to its community. -/
def Assignment.communityLedger (a : Assignment) (degree : ℕ → ℕ) : List (ℕ × ℕ) :=
  (List.range a.size).map fun v => (a.labelOf v, degree v)

theorem owed_communityLedger (a : Assignment) (degree : ℕ → ℕ) (c : ℕ) :
    owed c (a.communityLedger degree) = a.degreeSum degree c := by
  rw [communityLedger, owed_map, degreeSum, members, sumOver_filter]

/-- **The degree sums of communities are exact.** -/
theorem posts_communityLedger {g : CallGraph} {a : Assignment}
    (hm : g.totalWeight ≤ maxTotalWeight) (ha : a.Valid g.vertexCount) :
    Posts (a.communityLedger g.degree) (a.degreeSum g.degree) := by
  refine posts_of_lt ?_ (owed_communityLedger a g.degree)
  have hsum : sumOver (·.2) (a.communityLedger g.degree) = 2 * g.totalWeight := by
    rw [communityLedger, sumOver_map, ha.1, sumOver_eq_sum_map, sum_map_range]
    exact sum_degree g
  exact hsum ▸ two_mul_lt_size hm

/-! ## Building -/

namespace Builder

/-- What building adds to its running total. -/
def totalLedger (b : Builder) : List (Unit × ℕ) := ledgerOf (fun _ => [()]) b.kept

/-- What building adds to the weight of every pair of vertices. -/
def weightLedger (b : Builder) : List ((ℕ × ℕ) × ℕ) :=
  ledgerOf (fun e => [(e.source, e.target)]) b.kept

/-- **What an accepting builder adds up is exact.** -/
theorem posts_ledgers {b : Builder} {g : CallGraph} (h : b.build = .ok g) :
    Posts b.totalLedger (fun _ => g.totalWeight)
      ∧ Posts b.weightLedger fun p => g.weight p.1 p.2 := by
  obtain ⟨hm, rfl⟩ := build_eq_ok_iff.mp h
  refine ⟨posts_ledgerOf hm (fun _ => by simp) fun _ => ?_,
    posts_ledgerOf hm (fun _ => by simp) fun ⟨s, t⟩ => ?_⟩
  · rw [totalWeight_graph]
    exact sumOver_congr fun e _ => by simp
  · rw [graph, weight_ofArcs_of_lt fun _ => lt_of_mem_kept]
    exact sumOver_congr fun e _ => by simp

end Builder

end CallCommunities
