import CallCommunities.Proofs.Hierarchy.Reached
import Mathlib.Order.Bounds.Defs

/-!
# Proofs/Hierarchy/Identifiers — what the names of communities say

Communities are written down by name.  In what detection writes, **the name of a community is the
first name in it** (`identifiers_lowest`): the partition reached is canonical, through every round
and through a prior partition.

In what detection reads, the names say nothing: a prior partition is put into canonical form before
anything else looks at it, so **only who is together with whom matters** (`redetect_by_groups`), and
where nobody is, going on is starting from scratch (`continued_singletons`).
-/

namespace CallCommunities

open Assignment CallGraph Hierarchy

variable {settings : Settings} {g : CallGraph} {a b : Assignment} {p q : SortedMap String String}

/-! ## Names that are written -/

/-- Whether a map gives a community to exactly the vertices, and every community goes by the first
name in it. -/
structure LowestNamed (g : CallGraph) (p : SortedMap String String) : Prop where
  /-- The keys are the names of the vertices. -/
  mem_keys_iff : ∀ s, s ∈ p.keys ↔ s ∈ g.vertices.items
  /-- An identifier is the least of the names that are mapped to it, and so mapped to itself. -/
  isLeast : ∀ s c, p.get? s = some c → IsLeast {t | p.get? t = some c} c

/-- No name in a canonical community comes before its identifier. -/
theorem Assignment.Canonical.name_labelOf_le {v : ℕ} (h : Canonical g a) (hv : v < g.vertexCount) :
    g.name (a.labelOf v) ≤ g.name v := by
  refine String.not_lt.mp fun hlt => ?_
  have hrank := (rank_lt_iff hv (h.valid.labelOf_lt hv)).mpr (decide_eq_true hlt)
  exact absurd (h.rank_labelOf_le v hv) (not_le.mpr hrank)

/-- **Canonical labels are written as lowest names.** -/
theorem Assignment.Canonical.lowestNamed (h : Canonical g a) : LowestNamed g (toNames g a) where
  mem_keys_iff s := mem_keys_toNames a
  isLeast s c hs := by
    obtain ⟨v, hv, -, rfl⟩ := get?_toNames_eq_some_iff.mp hs
    refine ⟨?_, fun t ht => ?_⟩
    · exact get?_toNames_eq_some_iff.mpr
        ⟨a.labelOf v, h.valid.labelOf_lt hv, rfl, congrArg g.name (h.labelOf_labelOf v hv)⟩
    · obtain ⟨u, hu, rfl, hlabel⟩ := get?_toNames_eq_some_iff.mp ht
      exact hlabel ▸ h.name_labelOf_le hu

/-- **Communities go by their lowest names**, for detection from scratch and from a prior partition
alike, whatever names the prior partition uses. -/
theorem identifiers_lowest (settings : Settings) (g : CallGraph) :
    LowestNamed g (detect settings g).assignment
    ∧ ∀ (prior : SortedMap String String) (a : Assignment), Assignment.ofNames g prior = .ok a →
      ∃ d, redetect settings g prior = .ok d ∧ LowestNamed g d.assignment := by
  constructor
  · rw [detect_eq]
    exact (canonical_reached settings _ g).lowestNamed
  · intro prior a hprior
    obtain ⟨c, hc, -, hd, -⟩ := redetect_spec settings hprior
    exact ⟨_, hd, (canonical_mergedFrom settings hc).lowestNamed⟩

theorem identifiers_lowest_square :
    Assignment.ofNames square (toNames square ⟨#[3, 3, 0, 0]⟩) = .ok ⟨#[3, 3, 0, 0]⟩
    ∧ ∃ d, redetect .default square (toNames square ⟨#[3, 3, 0, 0]⟩) = .ok d
      ∧ LowestNamed square d.assignment := by
  have hprior : Assignment.ofNames square (toNames square ⟨#[3, 3, 0, 0]⟩) = .ok ⟨#[3, 3, 0, 0]⟩ :=
    ofNames_toNames ⟨rfl, by decide +kernel⟩
  exact ⟨hprior, (identifiers_lowest .default square).2 _ _ hprior⟩

/-! ## Names that are read -/

/-- Whether two maps put the same vertices together, whatever names they give them. -/
def GroupAlike (g : CallGraph) (p q : SortedMap String String) : Prop :=
  ∀ s ∈ g.vertices.items, ∀ t ∈ g.vertices.items, (p.get? s = p.get? t ↔ q.get? s = q.get? t)

instance : Decidable (GroupAlike g p q) :=
  inferInstanceAs (Decidable (∀ s ∈ g.vertices.items, ∀ t ∈ g.vertices.items, _))

/-- Whether a map puts no two vertices together. -/
def KeepsApart (g : CallGraph) (p : SortedMap String String) : Prop :=
  ∀ s ∈ g.vertices.items, ∀ t ∈ g.vertices.items, p.get? s = p.get? t → s = t

instance : Decidable (KeepsApart g p) :=
  inferInstanceAs (Decidable (∀ s ∈ g.vertices.items, ∀ t ∈ g.vertices.items, _))

/-- Maps that group alike are read as partitions with the same groups. -/
theorem GroupAlike.sameGroups (h : GroupAlike g p q) (hp : Assignment.ofNames g p = .ok a)
    (hq : Assignment.ofNames g q = .ok b) : SameGroups a b := by
  obtain ⟨ha, rfl⟩ := ofNames_eq_ok_iff.mp hp
  obtain ⟨hb, rfl⟩ := ofNames_eq_ok_iff.mp hq
  refine ⟨ha.1.trans hb.1.symm, fun u v hu hv => ?_⟩
  rw [ha.1] at hu hv
  rw [← get?_toNames_eq_iff ha hu hv, ← get?_toNames_eq_iff hb hu hv]
  exact h _ (name_mem hu) _ (name_mem hv)

/-- A map that keeps all vertices apart groups them as singletons do. -/
theorem KeepsApart.groupAlike (h : KeepsApart g p) :
    GroupAlike g p (toNames g (singletons g.vertexCount)) := by
  intro s hs t ht
  obtain ⟨u, hu, rfl⟩ := exists_name_eq hs
  obtain ⟨v, hv, rfl⟩ := exists_name_eq ht
  rw [get?_toNames_eq_iff (valid_singletons _) hu hv, labelOf_singletons, labelOf_singletons]
  exact ⟨fun heq => name_injOn hu hv (h _ hs _ ht heq), fun huv => huv ▸ rfl⟩

/-- **Going on from singletons is starting from scratch.** -/
theorem continued_singletons (settings : Settings) (g : CallGraph) :
    continued settings g (singletons g.vertexCount) = detect settings g := by
  rw [detect_eq, continued, mergedFrom, graph_coarsen_singletons,
    pullBack_of_singletons (valid_reached settings _ g)]

/-- **A prior partition counts by its groups alone.**  A map is accepted exactly when it fits the
graph; two maps that fit and put the same vertices together lead to the same detection, in its
assignment, rounds, modularity and warnings; and one that keeps all vertices apart leads to what
detection finds from scratch. -/
theorem redetect_by_groups (settings : Settings) (g : CallGraph) :
    (∀ p, (∃ d, redetect settings g p = .ok d) ↔ ∃ a, Assignment.ofNames g p = .ok a)
    ∧ (∀ p q a b, Assignment.ofNames g p = .ok a → Assignment.ofNames g q = .ok b →
      GroupAlike g p q → ∃ d, redetect settings g p = .ok d ∧ redetect settings g q = .ok d)
    ∧ ∀ p a, Assignment.ofNames g p = .ok a → KeepsApart g p →
      redetect settings g p = .ok (detect settings g) := by
  refine ⟨exists_redetect_iff settings g, fun p q a b hp hq halike => ?_, fun p a hp hapart => ?_⟩
  · have hsize := (ofNames_eq_ok_iff.mp hq).1.1
    have hcanonical := canonicalize_eq_of_sameGroups (canonical_canonicalize hsize)
      ((halike.sameGroups hp hq).trans (sameGroups_canonicalize hsize))
    exact ⟨_, hcanonical ▸ redetect_eq settings hp, redetect_eq settings hq⟩
  · have hsame := hapart.groupAlike.sameGroups hp (ofNames_toNames (valid_singletons _))
    rw [redetect_eq settings hp, canonicalize_eq_of_sameGroups (canonical_singletons g) hsame,
      continued_singletons]

theorem redetect_by_groups_square :
    (Assignment.ofNames square (toNames square ⟨#[1, 1, 2, 3]⟩) = .ok ⟨#[1, 1, 2, 3]⟩
      ∧ Assignment.ofNames square (toNames square ⟨#[2, 2, 3, 0]⟩) = .ok ⟨#[2, 2, 3, 0]⟩
      ∧ GroupAlike square (toNames square ⟨#[1, 1, 2, 3]⟩) (toNames square ⟨#[2, 2, 3, 0]⟩)
      ∧ ∃ d, redetect .default square (toNames square ⟨#[1, 1, 2, 3]⟩) = .ok d
        ∧ redetect .default square (toNames square ⟨#[2, 2, 3, 0]⟩) = .ok d)
    ∧ Assignment.ofNames square (toNames square ⟨#[1, 2, 3, 0]⟩) = .ok ⟨#[1, 2, 3, 0]⟩
      ∧ KeepsApart square (toNames square ⟨#[1, 2, 3, 0]⟩)
      ∧ redetect .default square (toNames square ⟨#[1, 2, 3, 0]⟩)
        = .ok (detect .default square) := by
  have hp : Assignment.ofNames square (toNames square ⟨#[1, 1, 2, 3]⟩) = .ok ⟨#[1, 1, 2, 3]⟩ :=
    ofNames_toNames ⟨rfl, by decide +kernel⟩
  have hq : Assignment.ofNames square (toNames square ⟨#[2, 2, 3, 0]⟩) = .ok ⟨#[2, 2, 3, 0]⟩ :=
    ofNames_toNames ⟨rfl, by decide +kernel⟩
  have hs : Assignment.ofNames square (toNames square ⟨#[1, 2, 3, 0]⟩) = .ok ⟨#[1, 2, 3, 0]⟩ :=
    ofNames_toNames ⟨rfl, by decide +kernel⟩
  have halike : GroupAlike square (toNames square ⟨#[1, 1, 2, 3]⟩)
      (toNames square ⟨#[2, 2, 3, 0]⟩) := by decide +kernel
  have hapart : KeepsApart square (toNames square ⟨#[1, 2, 3, 0]⟩) := by decide +kernel
  obtain ⟨-, hgroups, hscratch⟩ := redetect_by_groups .default square
  exact ⟨⟨hp, hq, halike, hgroups _ _ _ _ hp hq halike⟩, hs, hapart, hscratch _ _ hs hapart⟩

end CallCommunities
