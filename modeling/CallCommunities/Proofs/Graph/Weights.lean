import CallCommunities.CallGraph.LinkView
import CallCommunities.Proofs.Maps
import Mathlib.Algebra.BigOperators.Ring.Finset
import Mathlib.Algebra.Order.BigOperators.Group.Finset
import Mathlib.Tactic.Ring

/-!
# Proofs/Graph/Weights — a call graph as a matrix of weights

A graph is its roster of names and the function `weight` on pairs of vertices: every sum over arcs
is a sum over pairs (`sumOver_arcs`), and two graphs with the same names and the same weights are
equal (`ext_weight`).  Without directions only `linkWeight` is left, the calls of both directions:

* `degree_eq_sum` — a degree is a row of `linkWeight`;
* `sum_degree` — all degrees together are twice the total weight;
* `mem_incident` — the neighbours are the other vertices with a positive `linkWeight`.
-/

namespace CallCommunities

/-! ## Sums over lists -/

theorem sumOver_eq_sum_map {α : Type} (f : α → ℕ) (l : List α) : sumOver f l = (l.map f).sum := by
  induction l with
  | nil => rfl
  | cons x rest ih => rw [sumOver_cons, ih, List.map_cons, List.sum_cons]

theorem sumOver_map {α β : Type} (f : β → ℕ) (p : α → β) (l : List α) :
    sumOver f (l.map p) = sumOver (fun x => f (p x)) l := by
  rw [sumOver_eq_sum_map, sumOver_eq_sum_map, List.map_map]
  rfl

theorem sumOver_filterMap {α β : Type} (f : β → ℕ) (p : α → Option β) (l : List α) :
    sumOver f (l.filterMap p) = sumOver (fun x => (p x).elim 0 f) l := by
  induction l with
  | nil => rfl
  | cons x rest ih => cases hx : p x <;> simp [hx, ih]

theorem sumOver_congr {α : Type} {f f' : α → ℕ} {l : List α} (h : ∀ x ∈ l, f x = f' x) :
    sumOver f l = sumOver f' l := by
  rw [sumOver_eq_sum_map, sumOver_eq_sum_map, List.map_congr_left h]

theorem sumOver_add {α : Type} (f f' : α → ℕ) (l : List α) :
    sumOver (fun x => f x + f' x) l = sumOver f l + sumOver f' l := by
  induction l with
  | nil => rfl
  | cons x rest ih =>
    simp only [sumOver_cons, ih]
    omega

theorem sumOver_eq_zero {α : Type} {f : α → ℕ} {l : List α} (h : ∀ x ∈ l, f x = 0) :
    sumOver f l = 0 := by
  rw [sumOver_eq_sum_map, List.sum_eq_zero]
  intro n hn
  obtain ⟨x, hx, rfl⟩ := List.mem_map.mp hn
  exact h x hx

theorem sumOver_mul {α : Type} (c : ℕ) (f : α → ℕ) (l : List α) :
    sumOver (fun x => c * f x) l = c * sumOver f l := by
  induction l with
  | nil => rfl
  | cons x rest ih => simp only [sumOver_cons, ih, Nat.mul_add]

theorem sum_filterMap_ite {α β : Type} (p : α → Prop) [DecidablePred p] (g : α → β) (f : β → ℕ)
    (l : List α) : ((l.filterMap fun x => if p x then some (g x) else none).map f).sum
      = (l.map fun x => if p x then f (g x) else 0).sum := by
  induction l with
  | nil => rfl
  | cons x rest ih => by_cases h : p x <;> simp [h, ih]

theorem sum_filter_map {α : Type} (p : α → Bool) (f : α → ℕ) (l : List α) :
    ((l.filter p).map f).sum = (l.map fun x => if p x then f x else 0).sum := by
  induction l with
  | nil => rfl
  | cons x rest ih => by_cases h : p x <;> simp [h, ih]

theorem sumOver_filter {α : Type} (p : α → Prop) [DecidablePred p] (f : α → ℕ) (l : List α) :
    sumOver f (l.filter fun x => p x) = sumOver (fun x => if p x then f x else 0) l := by
  rw [sumOver_eq_sum_map, sumOver_eq_sum_map, sum_filter_map]
  simp only [decide_eq_true_eq]

theorem sumOver_filter_le {α : Type} (p : α → Bool) (f : α → ℕ) (l : List α) :
    sumOver f (l.filter p) ≤ sumOver f l := by
  induction l with
  | nil => exact le_rfl
  | cons x rest ih =>
    by_cases h : p x
    · simpa [h] using ih
    · simpa [h] using ih.trans (Nat.le_add_left _ _)

theorem sum_map_range {M : Type} [AddCommMonoid M] (n : ℕ) (f : ℕ → M) :
    ((List.range n).map f).sum = ∑ i ∈ Finset.range n, f i := by
  rw [Finset.sum, Finset.range_val, Multiset.range, Multiset.map_coe, Multiset.sum_coe]

theorem lookup_eq_some_iff_mem {β : Type} {x : ℕ} {y : β} : ∀ {l : List (ℕ × β)},
    (l.map (·.1)).Nodup → (l.lookup x = some y ↔ (x, y) ∈ l)
  | [], _ => by simp
  | (z, w) :: rest, h => by
    have hrest := List.nodup_cons.mp h
    have ih := lookup_eq_some_iff_mem (y := y) (x := x) hrest.2
    rw [List.lookup_cons, List.mem_cons]
    by_cases hx : x = z
    · subst hx
      have hout : (x, y) ∉ rest := fun hm => hrest.1 (List.mem_map.mpr ⟨_, hm, rfl⟩)
      simp [hout, eq_comm]
    · simp [beq_false_of_ne hx, ih, hx]

/-! ## Sums over the entries of a sorted map -/

namespace SortedMap

variable {κ ν : Type} [KeyOrder κ]

/-- **A sum over the entries is a sum over keys**, for any set that holds all of them. -/
theorem sum_entries [DecidableEq κ] (m : SortedMap κ ν) (f : κ → ν → ℕ) {s : Finset κ}
    (hs : ∀ k ∈ m.keys, k ∈ s) :
    (m.entries.map fun e => f e.1 e.2).sum = ∑ k ∈ s, (m.get? k).elim 0 (f k) := by
  have hsub : m.keys.toFinset ⊆ s := fun k hk => hs k (List.mem_toFinset.mp hk)
  rw [← Finset.sum_subset hsub fun k _ hk => by
    rw [get?_eq_none_of_notMem fun h => hk (List.mem_toFinset.mpr h)]; rfl]
  rw [List.sum_toFinset _ m.nodup_keys, keys, List.map_map]
  refine congrArg List.sum (List.map_congr_left fun e he => ?_)
  rw [Function.comp_apply, get?_eq_some_iff.mpr he]
  rfl

end SortedMap

namespace CallGraph

variable {g h : CallGraph} {s t u v : ℕ}

/-! ## Weights -/

/-- The vertices as a set. -/
def vertexSet (g : CallGraph) : Finset ℕ := Finset.range g.vertexCount

@[simp] theorem mem_vertexSet : v ∈ g.vertexSet ↔ v < g.vertexCount := Finset.mem_range

theorem fits_of_get? {x : ℕ} (hx : g.weights.get? (s, t) = some x) :
    s < g.vertexCount ∧ t < g.vertexCount ∧ 0 < x :=
  g.fits _ (SortedMap.get?_eq_some_iff.mp hx)

theorem get?_weights (g : CallGraph) (s t : ℕ) :
    g.weights.get? (s, t) = if g.weight s t = 0 then none else some (g.weight s t) := by
  unfold weight
  cases hx : g.weights.get? (s, t) with
  | none => rfl
  | some x =>
    have := (fits_of_get? hx).2.2
    rw [Option.getD_some, if_neg (by omega)]

theorem weight_eq_zero_of_source (hs : g.vertexCount ≤ s) : g.weight s t = 0 := by
  unfold weight
  cases hx : g.weights.get? (s, t) with
  | none => rfl
  | some x => exact absurd (fits_of_get? hx).1 (by omega)

theorem weight_eq_zero_of_target (ht : g.vertexCount ≤ t) : g.weight s t = 0 := by
  unfold weight
  cases hx : g.weights.get? (s, t) with
  | none => rfl
  | some x => exact absurd (fits_of_get? hx).2.1 (by omega)

/-- It is enough to compare the weights between vertices. -/
theorem weight_ext (hcount : h.vertexCount = g.vertexCount)
    (hw : ∀ s < g.vertexCount, ∀ t < g.vertexCount, h.weight s t = g.weight s t) (s t : ℕ) :
    h.weight s t = g.weight s t := by
  rcases lt_or_ge s g.vertexCount with hs | hs
  · rcases lt_or_ge t g.vertexCount with ht | ht
    · exact hw s hs t ht
    · rw [weight_eq_zero_of_target (hcount.symm ▸ ht), weight_eq_zero_of_target ht]
  · rw [weight_eq_zero_of_source (hcount.symm ▸ hs), weight_eq_zero_of_source hs]

/-- **A graph is its names and its weights.** -/
theorem ext_weight (hv : g.vertices = h.vertices) (hw : ∀ s t, g.weight s t = h.weight s t) :
    g = h := by
  refine ext_names_weights hv (SortedMap.ext_get? fun ⟨s, t⟩ => ?_)
  rw [get?_weights, get?_weights, hw]

/-- **A sum over the arcs is a sum over the pairs of vertices.** -/
theorem sumOver_arcs (g : CallGraph) (f : ℕ → ℕ → ℕ → ℕ) (hf : ∀ s t, f s t 0 = 0) :
    sumOver (fun e => f e.source e.target e.weight) g.arcs
      = ∑ s ∈ g.vertexSet, ∑ t ∈ g.vertexSet, f s t (g.weight s t) := by
  have hkeys : ∀ k ∈ g.weights.keys, k ∈ g.vertexSet ×ˢ g.vertexSet := by
    intro k hk
    obtain ⟨e, he, rfl⟩ := List.mem_map.mp hk
    have hfit := g.fits e he
    exact Finset.mem_product.mpr ⟨mem_vertexSet.mpr hfit.1, mem_vertexSet.mpr hfit.2.1⟩
  rw [sumOver_eq_sum_map, arcs, List.map_map, ← Finset.sum_product']
  refine (SortedMap.sum_entries g.weights (fun k x => f k.1 k.2 x) hkeys).trans ?_
  refine Finset.sum_congr rfl fun k _ => ?_
  rw [get?_weights]
  split
  · rename_i h0
    rw [h0, hf]
    rfl
  · rfl

theorem totalWeight_eq_sum (g : CallGraph) :
    g.totalWeight = ∑ s ∈ g.vertexSet, ∑ t ∈ g.vertexSet, g.weight s t :=
  sumOver_arcs g (fun _ _ w => w) fun _ _ => rfl

/-- The arcs between two vertices, at most one, have the weight between them. -/
theorem sumOver_between (g : CallGraph) (s t : ℕ) :
    sumOver (fun e => if (e.source, e.target) = (s, t) then e.weight else 0) g.arcs
      = g.weight s t := by
  refine (sumOver_arcs g (fun x y w => if (x, y) = (s, t) then w else 0) (by simp)).trans ?_
  simp only [Prod.mk.injEq, ite_and, Finset.sum_ite_eq', Finset.sum_ite_irrel,
    Finset.sum_const_zero, mem_vertexSet]
  split
  · split
    · rfl
    · exact (weight_eq_zero_of_target (by omega)).symm
  · exact (weight_eq_zero_of_source (by omega)).symm

/-! ## Weights without directions -/

/-- The calls of both directions between two vertices; a call from a vertex to itself has both. -/
def linkWeight (g : CallGraph) (u v : ℕ) : ℕ := g.weight u v + g.weight v u

theorem linkWeight_comm (g : CallGraph) (u v : ℕ) : g.linkWeight u v = g.linkWeight v u :=
  Nat.add_comm _ _

theorem linkWeight_eq_zero (hv : g.vertexCount ≤ v) : g.linkWeight u v = 0 := by
  rw [linkWeight, weight_eq_zero_of_target hv, weight_eq_zero_of_source hv]

/-- Here too it is enough to compare those between vertices. -/
theorem linkWeight_ext (hcount : h.vertexCount = g.vertexCount)
    (hw : ∀ u < g.vertexCount, ∀ v < g.vertexCount, h.linkWeight u v = g.linkWeight u v) (u v : ℕ) :
    h.linkWeight u v = g.linkWeight u v := by
  rcases lt_or_ge v g.vertexCount with hv | hv
  · rcases lt_or_ge u g.vertexCount with hu | hu
    · exact hw u hu v hv
    · rw [linkWeight_comm, linkWeight_eq_zero (hcount.symm ▸ hu), linkWeight_comm,
        linkWeight_eq_zero hu]
  · rw [linkWeight_eq_zero (hcount.symm ▸ hv), linkWeight_eq_zero hv]

theorem lt_of_linkWeight_pos (h : 0 < g.linkWeight u v) : v < g.vertexCount := by
  by_contra hv
  rw [linkWeight_eq_zero (not_lt.mp hv)] at h
  exact lt_irrefl 0 h

theorem sumOver_source (g : CallGraph) (v : ℕ) :
    sumOver (fun e => if e.source = v then e.weight else 0) g.arcs = sumOver (·.2) (g.outgoing v) := by
  rw [arcs, sumOver_map, outgoing, sumOver_filterMap]
  refine sumOver_congr fun e _ => ?_
  split <;> rfl

theorem sumOver_target (g : CallGraph) (v : ℕ) :
    sumOver (fun e => if e.target = v then e.weight else 0) g.arcs = sumOver (·.2) (g.incoming v) := by
  rw [arcs, sumOver_map, incoming, sumOver_filterMap]
  refine sumOver_congr fun e _ => ?_
  split <;> rfl

theorem sum_outgoing (g : CallGraph) (v : ℕ) :
    sumOver (·.2) (g.outgoing v) = ∑ u ∈ g.vertexSet, g.weight v u := by
  rw [← sumOver_source]
  refine (sumOver_arcs g (fun s _ w => if s = v then w else 0) fun s _ => by simp).trans ?_
  by_cases hv : v ∈ g.vertexSet
  · rw [Finset.sum_eq_single_of_mem v hv fun s _ hs => by simp [hs]]
    simp
  · have hle : g.vertexCount ≤ v := not_lt.mp fun h => hv (mem_vertexSet.mpr h)
    rw [Finset.sum_eq_zero fun u _ => weight_eq_zero_of_source hle]
    refine Finset.sum_eq_zero fun s hs => Finset.sum_eq_zero fun t _ => if_neg ?_
    rintro rfl
    exact hv hs

theorem sum_incoming (g : CallGraph) (v : ℕ) :
    sumOver (·.2) (g.incoming v) = ∑ u ∈ g.vertexSet, g.weight u v := by
  rw [← sumOver_target]
  refine (sumOver_arcs g (fun _ t w => if t = v then w else 0) fun _ t => by simp).trans ?_
  refine Finset.sum_congr rfl fun s _ => ?_
  by_cases hv : v ∈ g.vertexSet
  · rw [Finset.sum_eq_single_of_mem v hv fun t _ ht => by simp [ht]]
    simp
  · have hle : g.vertexCount ≤ v := not_lt.mp fun h => hv (mem_vertexSet.mpr h)
    rw [weight_eq_zero_of_target hle]
    refine Finset.sum_eq_zero fun t ht => if_neg ?_
    rintro rfl
    exact hv ht

/-- **A degree is a row of `linkWeight`.** -/
theorem degree_eq_sum (g : CallGraph) (v : ℕ) :
    g.degree v = ∑ u ∈ g.vertexSet, g.linkWeight v u := by
  rw [degree, sum_outgoing, sum_incoming, ← Finset.sum_add_distrib]
  rfl

/-- **All degrees together are twice the total weight.** -/
theorem sum_degree (g : CallGraph) : ∑ v ∈ g.vertexSet, g.degree v = 2 * g.totalWeight := by
  simp only [degree_eq_sum, linkWeight, Finset.sum_add_distrib]
  rw [Finset.sum_comm (f := fun v u => g.weight u v), ← totalWeight_eq_sum, Nat.two_mul]

theorem degree_eq_zero (hv : g.vertexCount ≤ v) : g.degree v = 0 := by
  rw [degree_eq_sum]
  exact Finset.sum_eq_zero fun u _ => by rw [linkWeight_comm, linkWeight_eq_zero hv]

/-! ## Arcs and neighbours -/

theorem mem_arcs {e : Arc} : e ∈ g.arcs ↔ g.weights.get? (e.source, e.target) = some e.weight := by
  rw [arcs, List.mem_map, SortedMap.get?_eq_some_iff]
  constructor
  · rintro ⟨entry, hentry, rfl⟩
    exact hentry
  · exact fun h => ⟨_, h, rfl⟩

theorem mem_outgoing {w : ℕ} : (u, w) ∈ g.outgoing v ↔ g.weights.get? (v, u) = some w := by
  rw [outgoing, List.mem_filterMap, SortedMap.get?_eq_some_iff]
  constructor
  · rintro ⟨⟨⟨s, t⟩, x⟩, he, hx⟩
    split at hx
    · simp_all
    · exact absurd hx (by simp)
  · exact fun he => ⟨((v, u), w), he, by simp⟩

theorem mem_incoming {w : ℕ} : (u, w) ∈ g.incoming v ↔ g.weights.get? (u, v) = some w := by
  rw [incoming, List.mem_filterMap, SortedMap.get?_eq_some_iff]
  constructor
  · rintro ⟨⟨⟨s, t⟩, x⟩, he, hx⟩
    split at hx
    · simp_all
    · exact absurd hx (by simp)
  · exact fun he => ⟨((u, v), w), he, by simp⟩

/-- **The targets of a vertex stand in increasing order.** -/
theorem pairwise_outgoing (g : CallGraph) (v : ℕ) :
    (g.outgoing v).Pairwise fun p q => p.1 < q.1 := by
  refine List.Pairwise.filterMap _ ?_ (g.weights.sorted.imp fun h => h)
  intro e e' hlt b hb b' hb'
  split at hb <;> split at hb' <;> simp only [Option.some.injEq, reduceCtorEq] at hb hb'
  rename_i hsource hsource'
  subst hb hb'
  simpa [KeyOrder.before, hsource, hsource'] using hlt

theorem nodup_outgoing (g : CallGraph) (v : ℕ) : ((g.outgoing v).map (·.1)).Nodup :=
  List.pairwise_map.mpr ((g.pairwise_outgoing v).imp ne_of_lt)

theorem nodup_incoming (g : CallGraph) (v : ℕ) : ((g.incoming v).map (·.1)).Nodup := by
  refine List.pairwise_map.mpr (List.Pairwise.filterMap _ ?_ (g.weights.sorted.imp fun h => h))
  intro e e' hlt b hb b' hb' heq
  split at hb <;> split at hb' <;> simp only [Option.some.injEq, reduceCtorEq] at hb hb'
  subst hb hb'
  exact KeyOrder.ne_of_before hlt (Prod.ext heq (by simp [*]))

theorem recorded_outgoing (g : CallGraph) (v u : ℕ) : recorded (g.outgoing v) u = g.weight v u := by
  refine congrArg (Option.getD · 0) (Option.ext fun w => ?_)
  rw [lookup_eq_some_iff_mem (g.nodup_outgoing v), mem_outgoing]

theorem recorded_incoming (g : CallGraph) (v u : ℕ) : recorded (g.incoming v) u = g.weight u v := by
  refine congrArg (Option.getD · 0) (Option.ext fun w => ?_)
  rw [lookup_eq_some_iff_mem (g.nodup_incoming v), mem_incoming]

theorem incident_eq (g : CallGraph) (v : ℕ) :
    g.incident v = g.vertexList.filterMap fun u =>
      if u ≠ v ∧ 0 < g.linkWeight v u then some (u, g.linkWeight v u) else none := by
  simp only [incident, recorded_outgoing, recorded_incoming]
  rfl

/-- **The neighbours are the other vertices that share calls**, with the calls of both
directions. -/
theorem mem_incident {w : ℕ} :
    (u, w) ∈ g.incident v ↔ u ≠ v ∧ 0 < w ∧ w = g.linkWeight v u := by
  rw [incident_eq, List.mem_filterMap]
  constructor
  · rintro ⟨x, -, hx⟩
    split at hx
    · rename_i hpos
      cases hx
      exact ⟨hpos.1, hpos.2, rfl⟩
    · cases hx
  · rintro ⟨hne, hpos, rfl⟩
    exact ⟨u, List.mem_range.mpr (lt_of_linkWeight_pos hpos), if_pos ⟨hne, hpos⟩⟩

/-- A sum over the neighbours is a sum over the other vertices. -/
theorem sum_incident (g : CallGraph) (v : ℕ) (f : ℕ → ℕ → ℕ) (hf : ∀ u, f u 0 = 0) :
    ((g.incident v).map fun p => f p.1 p.2).sum
      = ∑ u ∈ g.vertexSet.erase v, f u (g.linkWeight v u) := by
  have hterm : ∀ u, (if u ≠ v ∧ 0 < g.linkWeight v u then f u (g.linkWeight v u) else 0)
      = if u ≠ v then f u (g.linkWeight v u) else 0 := by
    intro u
    by_cases hu : u = v
    · simp [hu]
    · rcases Nat.eq_zero_or_pos (g.linkWeight v u) with h0 | hpos
      · simp [h0, hf]
      · simp [hu, hpos]
  rw [incident_eq, sum_filterMap_ite, List.map_congr_left fun u _ => hterm u]
  rw [vertexSet, ← Finset.filter_ne', Finset.sum_filter]
  exact sum_map_range _ _

end CallGraph

end CallCommunities
