import CallCommunities.Proofs.Partition.Parts
import CallCommunities.Proofs.Partition.Visit

/-!
# Proofs/Partition/Embedding — one graph inside another

`Embeds c φ g h` says that `h` holds a copy of `g`: the vertex `v` of `g` stands at `φ v`, the names
of the copies are in the same order, between two copies there are `c` times the calls, and **the
other vertices of `h` have no calls at all**.  So indices, directions, the names themselves, the unit
of counting, and vertices without calls are free.

A partition of `g` is **spread** over `h` by carrying its labels along and leaving the other vertices
alone (`Assignment.spread`).  Everything that partitioning does commutes with spreading: balances
differ by the factor `c²` (`balance_eq`), so a copy makes the choice of the vertex (`best_spread`), and
canonical forms and connected parts are spread (`canonicalize_spread`, `refine_spread`).
-/

namespace CallCommunities

open Finset Assignment

namespace CallGraph

/-- Where the copies of the vertices of `g` stand. -/
def placed (g : CallGraph) (φ : ℕ → ℕ) : List ℕ := g.vertexList.map φ

/-- Whether `φ` copies `g` into `h`, with `c` times the calls and none at the other vertices. -/
structure Embeds (c : ℕ) (φ : ℕ → ℕ) (g h : CallGraph) : Prop where
  lt : ∀ v < g.vertexCount, φ v < h.vertexCount
  rank_le_iff : ∀ u < g.vertexCount, ∀ v < g.vertexCount,
    (h.rank (φ u) ≤ h.rank (φ v) ↔ g.rank u ≤ g.rank v)
  linkWeight_eq : ∀ u < g.vertexCount, ∀ v < g.vertexCount,
    h.linkWeight (φ u) (φ v) = c * g.linkWeight u v
  idle : ∀ x, x ∉ g.placed φ → ∀ y, h.linkWeight x y = 0

variable {c : ℕ} {φ : ℕ → ℕ} {g h : CallGraph} {a b : Assignment} {u v x y d : ℕ}

theorem mem_placed : x ∈ g.placed φ ↔ ∃ v, v < g.vertexCount ∧ φ v = x := by
  rw [placed, List.mem_map]
  exact exists_congr fun v => and_congr_left fun _ => List.mem_range

theorem mem_placed_of_lt (hv : v < g.vertexCount) : φ v ∈ g.placed φ := mem_placed.mpr ⟨v, hv, rfl⟩

end CallGraph

/-- The partition of `h` that a partition of `g` amounts to: the copies take the copies of the labels,
and the other vertices are communities of their own. -/
def Assignment.spread (φ : ℕ → ℕ) (g h : CallGraph) (a : Assignment) : Assignment :=
  .tabulate h.vertexCount fun x =>
    ((g.vertexList.find? fun v => φ v = x).map fun v => φ (a.labelOf v)).getD x

namespace CallGraph

variable {c : ℕ} {φ : ℕ → ℕ} {g h : CallGraph} {a b : Assignment} {u v x y d : ℕ}

@[simp] theorem size_spread (φ : ℕ → ℕ) (g h : CallGraph) (a : Assignment) :
    (a.spread φ g h).size = h.vertexCount := size_tabulate _ _

namespace Embeds

variable (hE : Embeds c φ g h)
include hE

/-! ## Degrees and balances -/

theorem injOn : Set.InjOn φ (Set.Iio g.vertexCount) := by
  intro u hu v hv heq
  refine rank_injOn hu hv (le_antisymm ?_ ?_)
  · exact (hE.rank_le_iff u hu v hv).mp (heq ▸ le_rfl)
  · exact (hE.rank_le_iff v hv u hu).mp (heq ▸ le_rfl)

theorem apply_eq_iff (hu : u < g.vertexCount) (hv : v < g.vertexCount) : φ u = φ v ↔ u = v :=
  ⟨fun heq => hE.injOn hu hv heq, congrArg φ⟩

theorem idle_right (hx : x ∉ g.placed φ) (y : ℕ) : h.linkWeight y x = 0 := by
  rw [linkWeight_comm, hE.idle x hx]

/-- **A sum over the vertices of `h` is one over the copies**, if the others add nothing. -/
theorem sum_vertexSet {M : Type} [AddCommMonoid M] (f : ℕ → M)
    (hf : ∀ x, x ∉ g.placed φ → f x = 0) :
    ∑ x ∈ h.vertexSet, f x = ∑ v ∈ g.vertexSet, f (φ v) := by
  refine (sum_of_injOn φ (fun u hu v hv => ?_) (fun v hv => ?_) (fun x _ hx => ?_)
    fun v _ => rfl).symm
  · exact hE.injOn (mem_vertexSet.mp hu) (mem_vertexSet.mp hv)
  · exact mem_vertexSet.mpr (hE.lt v (mem_vertexSet.mp hv))
  · refine hf x fun hmem => hx ?_
    obtain ⟨v, hv, rfl⟩ := mem_placed.mp hmem
    exact ⟨v, mem_vertexSet.mpr hv, rfl⟩

theorem sum_erase {M : Type} [AddCommMonoid M] (f : ℕ → M)
    (hf : ∀ x, x ∉ g.placed φ → f x = 0) (hv : v < g.vertexCount) :
    ∑ x ∈ h.vertexSet.erase (φ v), f x = ∑ u ∈ g.vertexSet.erase v, f (φ u) := by
  rw [← filter_ne', ← filter_ne', sum_filter, sum_filter,
    hE.sum_vertexSet _ fun x hx => by rw [hf x hx, ite_self]]
  exact sum_congr rfl fun u hu => if_congr (hE.apply_eq_iff (mem_vertexSet.mp hu) hv).not rfl rfl

theorem degree_eq (hv : v < g.vertexCount) : h.degree (φ v) = c * g.degree v := by
  rw [degree_eq_sum, degree_eq_sum, hE.sum_vertexSet _ fun x hx => hE.idle_right hx _, mul_sum]
  exact sum_congr rfl fun u hu => hE.linkWeight_eq v hv u (mem_vertexSet.mp hu)

theorem degree_idle (hx : x ∉ g.placed φ) : h.degree x = 0 := by
  rw [degree_eq_sum]
  exact sum_eq_zero fun y _ => hE.idle x hx y

theorem totalWeight_eq : h.totalWeight = c * g.totalWeight := by
  have hdouble : 2 * h.totalWeight = 2 * (c * g.totalWeight) := by
    rw [Nat.mul_left_comm, ← sum_degree, ← sum_degree,
      hE.sum_vertexSet _ fun x hx => hE.degree_idle hx, mul_sum]
    exact sum_congr rfl fun v hv => hE.degree_eq (mem_vertexSet.mp hv)
  omega

/-- **Balances differ by the square of the factor.** -/
theorem balance_eq (hu : u < g.vertexCount) (hv : v < g.vertexCount) :
    h.balance (φ u) (φ v) = c ^ 2 * g.balance u v := by
  rw [balance, balance, hE.degree_eq hu, hE.degree_eq hv, hE.totalWeight_eq,
    hE.linkWeight_eq u hu v hv]
  push_cast
  ring

theorem balance_idle (hx : x ∉ g.placed φ) (y : ℕ) : h.balance y x = 0 := by
  rw [balance, hE.idle_right hx, hE.degree_idle hx]
  simp

/-! ## Spreading labels -/

theorem labelOf_spread (a : Assignment) (hv : v < g.vertexCount) :
    (a.spread φ g h).labelOf (φ v) = φ (a.labelOf v) := by
  rw [spread, labelOf_tabulate _ (hE.lt v hv)]
  have hfound : g.vertexList.find? (fun u => φ u = φ v) = some v := by
    rcases hfind : g.vertexList.find? (fun u => φ u = φ v) with _ | u
    · have hnone := List.find?_eq_none.mp hfind v (List.mem_range.mpr hv)
      simp at hnone
    · have hu := List.mem_range.mp (List.mem_of_find?_eq_some hfind)
      have heq := List.find?_some hfind
      rw [(hE.apply_eq_iff hu hv).mp (of_decide_eq_true heq)]
  rw [hfound]
  rfl

omit hE in
theorem labelOf_spread_idle (a : Assignment) (hx : x ∉ g.placed φ) :
    (a.spread φ g h).labelOf x = x := by
  have hnone : g.vertexList.find? (fun v => φ v = x) = none := by
    refine List.find?_eq_none.mpr fun v hv heq => hx ?_
    exact mem_placed.mpr ⟨v, List.mem_range.mp hv, of_decide_eq_true heq⟩
  rcases lt_or_ge x h.vertexCount with hlt | hge
  · rw [spread, labelOf_tabulate _ hlt, hnone]
    rfl
  · exact getD_tabulated_of_le _ _ hge

/-- A partition that agrees with the copies, and keeps the others apart, is spread. -/
theorem eq_spread (hs : b.size = h.vertexCount)
    (hcopy : ∀ v < g.vertexCount, b.labelOf (φ v) = φ (a.labelOf v))
    (hidle : ∀ x < h.vertexCount, x ∉ g.placed φ → b.labelOf x = x) : b = a.spread φ g h := by
  refine ext_labelOf (hs.trans (size_spread φ g h a).symm) fun x hx => ?_
  by_cases hmem : x ∈ g.placed φ
  · obtain ⟨v, hv, rfl⟩ := mem_placed.mp hmem
    rw [hcopy v hv, hE.labelOf_spread a hv]
  · rw [hidle x (hs ▸ hx) hmem, labelOf_spread_idle a hmem]

theorem valid_spread (ha : a.Valid g.vertexCount) : (a.spread φ g h).Valid h.vertexCount := by
  refine valid_of_labelOf_lt (size_spread φ g h a) fun x hx => ?_
  by_cases hmem : x ∈ g.placed φ
  · obtain ⟨v, hv, rfl⟩ := mem_placed.mp hmem
    rw [hE.labelOf_spread a hv]
    exact hE.lt _ (ha.labelOf_lt hv)
  · rwa [labelOf_spread_idle a hmem]

/-- **A vertex is labelled by a copy exactly when it is one.** -/
theorem labelOf_spread_mem_placed (ha : a.Valid g.vertexCount) :
    (a.spread φ g h).labelOf x ∈ g.placed φ ↔ x ∈ g.placed φ := by
  by_cases hmem : x ∈ g.placed φ
  · obtain ⟨v, hv, rfl⟩ := mem_placed.mp hmem
    rw [hE.labelOf_spread a hv]
    exact iff_of_true (mem_placed_of_lt (ha.labelOf_lt hv)) hmem
  · rw [labelOf_spread_idle a hmem]

theorem spread_singletons :
    (singletons g.vertexCount).spread φ g h = singletons h.vertexCount := by
  refine (hE.eq_spread (size_singletons _) (fun v _ => ?_) fun x _ _ => ?_).symm
  · rw [labelOf_singletons, labelOf_singletons]
  · rw [labelOf_singletons]

theorem spread_relabel (ha : a.Valid g.vertexCount) (hv : v < g.vertexCount) (d : ℕ) :
    (a.relabel v d).spread φ g h = (a.spread φ g h).relabel (φ v) (φ d) := by
  have hsize : φ v < (a.spread φ g h).size := size_spread φ g h a ▸ hE.lt v hv
  refine (hE.eq_spread (by rw [size_relabel, size_spread]) (fun u hu => ?_) fun x _ hx => ?_).symm
  · rw [labelOf_relabel _ hsize, labelOf_relabel a (ha.1.symm ▸ hv), hE.labelOf_spread a hu,
      apply_ite φ]
    exact if_congr (hE.apply_eq_iff hu hv) rfl rfl
  · have hne : x ≠ φ v := fun heq => hx (heq ▸ mem_placed_of_lt hv)
    rw [labelOf_relabel _ hsize, if_neg hne, labelOf_spread_idle a hx]

/-- **Copies are together when the vertices are.** -/
theorem labelOf_spread_eq_iff (ha : a.Valid g.vertexCount) (hu : u < g.vertexCount)
    (hv : v < g.vertexCount) :
    (a.spread φ g h).labelOf (φ u) = (a.spread φ g h).labelOf (φ v)
      ↔ a.labelOf u = a.labelOf v := by
  rw [hE.labelOf_spread a hu, hE.labelOf_spread a hv,
    hE.apply_eq_iff (ha.labelOf_lt hu) (ha.labelOf_lt hv)]

/-- The other vertices are with nobody. -/
theorem labelOf_spread_idle_eq_iff (ha : a.Valid g.vertexCount) (hx : x ∉ g.placed φ) :
    (a.spread φ g h).labelOf x = (a.spread φ g h).labelOf y ↔ x = y := by
  refine ⟨fun heq => ?_, congrArg _⟩
  have hy : y ∉ g.placed φ := fun hy => hx <|
    (hE.labelOf_spread_mem_placed ha).mp (heq ▸ (hE.labelOf_spread_mem_placed ha).mpr hy)
  rwa [labelOf_spread_idle a hx, labelOf_spread_idle a hy] at heq

/-! ## Canonical forms and parts -/

theorem sameGroups_spread (ha : a.Valid g.vertexCount) (hb : b.Valid g.vertexCount)
    (hsame : SameGroups a b) : SameGroups (a.spread φ g h) (b.spread φ g h) := by
  refine ⟨by rw [size_spread, size_spread], fun x y _ _ => ?_⟩
  by_cases hx : x ∈ g.placed φ
  · by_cases hy : y ∈ g.placed φ
    · obtain ⟨u, hu, rfl⟩ := mem_placed.mp hx
      obtain ⟨v, hv, rfl⟩ := mem_placed.mp hy
      rw [hE.labelOf_spread_eq_iff ha hu hv, hE.labelOf_spread_eq_iff hb hu hv]
      exact hsame.2 u v (ha.1.symm ▸ hu) (ha.1.symm ▸ hv)
    · rw [eq_comm, hE.labelOf_spread_idle_eq_iff ha hy, eq_comm (a := (b.spread φ g h).labelOf x),
        hE.labelOf_spread_idle_eq_iff hb hy]
  · rw [hE.labelOf_spread_idle_eq_iff ha hx, hE.labelOf_spread_idle_eq_iff hb hx]

theorem canonical_spread (ha : Canonical g a) : Canonical h (a.spread φ g h) := by
  refine ⟨hE.valid_spread ha.valid, fun x _ => ?_, fun x _ => ?_⟩
  · by_cases hx : x ∈ g.placed φ
    · obtain ⟨v, hv, rfl⟩ := mem_placed.mp hx
      rw [hE.labelOf_spread a hv, hE.labelOf_spread a (ha.valid.labelOf_lt hv),
        ha.labelOf_labelOf v hv]
    · rw [labelOf_spread_idle a hx, labelOf_spread_idle a hx]
  · by_cases hx : x ∈ g.placed φ
    · obtain ⟨v, hv, rfl⟩ := mem_placed.mp hx
      rw [hE.labelOf_spread a hv, hE.rank_le_iff _ (ha.valid.labelOf_lt hv) v hv]
      exact ha.rank_labelOf_le v hv
    · rw [labelOf_spread_idle a hx]

/-- **Canonical forms are spread.** -/
theorem canonicalize_spread (ha : a.Valid g.vertexCount) :
    (a.spread φ g h).canonicalize h.linkView = (a.canonicalize g.linkView).spread φ g h := by
  have hcanonical := canonical_canonicalize (g := g) ha.1
  exact canonicalize_eq_of_sameGroups (hE.canonical_spread hcanonical)
    (hE.sameGroups_spread ha hcanonical.valid (sameGroups_canonicalize ha.1))

section Positive

variable (hc : 0 < c)
include hc

theorem linkWeight_pos_iff (hu : u < g.vertexCount) (hv : v < g.vertexCount) :
    0 < h.linkWeight (φ u) (φ v) ↔ 0 < g.linkWeight u v := by
  rw [hE.linkWeight_eq u hu v hv]
  exact Nat.mul_pos_iff_of_pos_left hc

/-- Calls from a copy lead to a copy. -/
theorem linkWeight_pos_iff_exists (hv : v < g.vertexCount) :
    0 < h.linkWeight (φ v) x ↔ ∃ u, φ u = x ∧ 0 < g.linkWeight v u := by
  constructor
  · intro hpos
    have hx : x ∈ g.placed φ := by
      by_contra hx
      rw [hE.idle_right hx] at hpos
      exact lt_irrefl 0 hpos
    obtain ⟨u, hu, rfl⟩ := mem_placed.mp hx
    exact ⟨u, rfl, (hE.linkWeight_pos_iff hc hv hu).mp hpos⟩
  · rintro ⟨u, rfl, hpos⟩
    exact (hE.linkWeight_pos_iff hc hv (lt_of_linkWeight_pos hpos)).mpr hpos

theorem touching_spread_iff (ha : a.Valid g.vertexCount) (hu : u < g.vertexCount) :
    Touching h.linkView (a.spread φ g h) (φ u) x
      ↔ ∃ v, φ v = x ∧ Touching g.linkView a u v := by
  simp only [touching_iff, hE.linkWeight_pos_iff_exists hc hu]
  constructor
  · rintro ⟨⟨hne, v, rfl, hpos⟩, hlabel⟩
    have hv := lt_of_linkWeight_pos hpos
    exact ⟨v, rfl, ⟨fun heq => hne (heq ▸ rfl), hpos⟩,
      (hE.labelOf_spread_eq_iff ha hu hv).mp hlabel⟩
  · rintro ⟨v, rfl, ⟨hne, hpos⟩, hlabel⟩
    have hv := lt_of_linkWeight_pos hpos
    exact ⟨⟨(hE.apply_eq_iff hv hu).not.mpr hne, v, rfl, hpos⟩,
      (hE.labelOf_spread_eq_iff ha hu hv).mpr hlabel⟩

/-- **The paths from a copy are the copies of the paths.** -/
theorem joined_spread_iff (ha : a.Valid g.vertexCount) (hu : u < g.vertexCount) :
    Joined h.linkView (a.spread φ g h) (φ u) x ↔ ∃ v, φ v = x ∧ Joined g.linkView a u v := by
  constructor
  · intro hjoin
    induction hjoin with
    | refl => exact ⟨u, rfl, .refl u⟩
    | step _ htouch ih =>
      obtain ⟨v, rfl, hpath⟩ := ih
      obtain ⟨w, rfl, hlast⟩ := (hE.touching_spread_iff hc ha (hpath.lt hu)).mp htouch
      exact ⟨w, rfl, hpath.step hlast⟩
  · rintro ⟨v, rfl, hjoin⟩
    induction hjoin with
    | refl => exact .refl _
    | step hpath htouch ih =>
      exact ih.step ((hE.touching_spread_iff hc ha (hpath.lt hu)).mpr ⟨_, rfl, htouch⟩)

omit hc in
theorem joined_idle (hx : x ∉ g.placed φ) (hjoin : Joined h.linkView b x y) : x = y := by
  induction hjoin with
  | refl => rfl
  | step _ htouch ih =>
    subst ih
    have hpos := (touching_iff.mp htouch).1.2
    rw [hE.idle _ hx] at hpos
    exact absurd hpos (lt_irrefl 0)

/-- **Connected parts are spread.** -/
theorem refine_spread (ha : a.Valid g.vertexCount) :
    (a.spread φ g h).refine h.linkView = (a.refine g.linkView).spread φ g h := by
  have hparts := canonical_refine g a
  refine Canonical.ext_sameGroups (canonical_refine h _) (hE.canonical_spread hparts)
    ⟨by rw [(valid_refine h _).1, size_spread], fun x y hx hy => ?_⟩
  rw [(valid_refine h _).1] at hx hy
  rw [labelOf_refine_eq_iff hx hy]
  by_cases hxp : x ∈ g.placed φ
  · obtain ⟨u, hu, rfl⟩ := mem_placed.mp hxp
    rw [hE.joined_spread_iff hc ha hu]
    constructor
    · rintro ⟨v, rfl, hjoin⟩
      rw [hE.labelOf_spread_eq_iff hparts.valid hu (hjoin.lt hu)]
      exact (labelOf_refine_eq_iff hu (hjoin.lt hu)).mpr hjoin
    · intro heq
      have hyp : y ∈ g.placed φ := by
        rw [← hE.labelOf_spread_mem_placed hparts.valid, ← heq,
          hE.labelOf_spread_mem_placed hparts.valid]
        exact hxp
      obtain ⟨v, hv, rfl⟩ := mem_placed.mp hyp
      rw [hE.labelOf_spread_eq_iff hparts.valid hu hv] at heq
      exact ⟨v, rfl, (labelOf_refine_eq_iff hu hv).mp heq⟩
  · rw [hE.labelOf_spread_idle_eq_iff hparts.valid hxp]
    exact ⟨hE.joined_idle hxp, fun heq => heq ▸ .refl x⟩

/-! ## Choices -/

omit hc in
theorem pull_spread (ha : a.Valid g.vertexCount) (hv : v < g.vertexCount)
    (hd : d < g.vertexCount) :
    h.pull (a.spread φ g h) (φ v) (φ d) = c ^ 2 * g.pull a v d := by
  rw [pull, pull, hE.sum_erase _ (fun x hx => by rw [hE.balance_idle hx, ite_self]) hv, mul_sum]
  refine sum_congr rfl fun u hu => ?_
  have hu := mem_vertexSet.mp (mem_of_mem_erase hu)
  rw [hE.labelOf_spread a hu, hE.balance_eq hv hu, mul_ite, mul_zero]
  exact if_congr (hE.apply_eq_iff (ha.labelOf_lt hu) hd) rfl rfl

theorem pull_spread_le_iff (ha : a.Valid g.vertexCount) (hv : v < g.vertexCount)
    (hx : x < g.vertexCount) (hy : y < g.vertexCount) :
    h.pull (a.spread φ g h) (φ v) (φ x) ≤ h.pull (a.spread φ g h) (φ v) (φ y)
      ↔ g.pull a v x ≤ g.pull a v y := by
  have hpos : (0 : ℤ) < c ^ 2 := pow_pos (Int.natCast_pos.mpr hc) 2
  rw [hE.pull_spread ha hv hx, hE.pull_spread ha hv hy, mul_le_mul_iff_right₀ hpos]

/-- A copy looks at the copies of the communities. -/
theorem faces_spread_iff (hv : v < g.vertexCount) :
    h.Faces (a.spread φ g h) (φ v) x ↔ ∃ d, φ d = x ∧ g.Faces a v d := by
  simp only [Faces, hE.linkWeight_pos_iff_exists hc hv, hE.labelOf_spread a hv]
  constructor
  · rintro (rfl | ⟨_, hne, ⟨u, rfl, hpos⟩, rfl⟩)
    · exact ⟨_, rfl, .inl rfl⟩
    · refine ⟨a.labelOf u, (hE.labelOf_spread a (lt_of_linkWeight_pos hpos)).symm, .inr ?_⟩
      exact ⟨u, fun heq => hne (heq ▸ rfl), hpos, rfl⟩
  · rintro ⟨d, rfl, rfl | ⟨u, hne, hpos, rfl⟩⟩
    · exact .inl rfl
    · have hu := lt_of_linkWeight_pos hpos
      exact .inr ⟨φ u, (hE.apply_eq_iff hu hv).not.mpr hne, ⟨u, rfl, hpos⟩,
        hE.labelOf_spread a hu⟩

/-- **A copy chooses the copy of the community.** -/
theorem best_spread (ha : a.Valid g.vertexCount) (hv : v < g.vertexCount)
    (hbest : Moving.Best g a v d) : Moving.Best h (a.spread φ g h) (φ v) (φ d) := by
  have hd := hbest.faces.lt ha hv
  refine ⟨(hE.faces_spread_iff hc hv).mpr ⟨d, rfl, hbest.faces⟩, fun x hx => ?_,
    fun x hx heq => ?_⟩
  · obtain ⟨e, rfl, he⟩ := (hE.faces_spread_iff hc hv).mp hx
    exact (hE.pull_spread_le_iff hc ha hv (he.lt ha hv) hd).mpr (hbest.pull_le e he)
  · obtain ⟨e, rfl, he⟩ := (hE.faces_spread_iff hc hv).mp hx
    have he' := he.lt ha hv
    refine (hE.rank_le_iff d hd e he').mpr (hbest.rank_le e he (le_antisymm ?_ ?_))
    · exact (hE.pull_spread_le_iff hc ha hv he' hd).mp heq.le
    · exact (hE.pull_spread_le_iff hc ha hv hd he').mp heq.ge

omit hc in
/-- **A vertex without calls has nowhere to go.** -/
theorem faces_idle (hx : x ∉ g.placed φ) (hfaces : h.Faces b x y) : y = b.labelOf x := by
  rcases hfaces with rfl | ⟨u, -, hpos, -⟩
  · rfl
  · rw [hE.idle x hx] at hpos
    exact absurd hpos (lt_irrefl 0)

end Positive

end Embeds

end CallGraph

end CallCommunities
