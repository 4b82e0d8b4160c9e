import CallCommunities.Proofs.Hierarchy.Counterparts
import CallCommunities.Proofs.Hierarchy.Resemblance

/-!
# Proofs/Hierarchy/Enumeration — what the order of the observations decides

Observations in another order build a graph with the same names and calls (`holds_of_perm`), but with
its vertices numbered in another order, the one of first mention.  **Ties do not see the numbers.**
From partitions that agree by name, visits to the same names in the same order agree by name, and so do
splitting and canonical forms (`toNames_visited`, `toNames_refine`, `toNames_canonicalize`).

What the numbers do decide is the order in which a sweep visits the vertices, and there the first to
move may take the place of another: **detection depends on the order of first mention**
(`order_of_mention_matters`), and of the order of the observations on nothing else
(`detection_enumerated`).
-/

namespace CallCommunities

open Assignment CallGraph

/-! ## Permuted observations -/

namespace Builder

variable {b : Builder} {l l' : List Observation} {s t : String}

/-- The calls by name of a built graph. -/
theorem callsNamed_graph (hs : s ∈ b.vertices.items) (ht : t ∈ b.vertices.items) :
    b.graph.callsNamed s t = sumOver (fun call =>
      if call.caller = s ∧ call.callee = t then call.weight else 0) b.calls.toList := by
  obtain ⟨u, hu, rfl⟩ := exists_name_eq (g := b.graph) hs
  obtain ⟨v, hv, rfl⟩ := exists_name_eq (g := b.graph) ht
  rw [callsNamed_name hu hv, weight_graph hu hv]

/-- Observations in another order lead to the same names and calls. -/
theorem holds_of_perm (hopen : b.isClosed = false) (hperm : l'.Perm l) :
    Holds (b.observeAll l).graph (b.observeAll l').graph := by
  have hcalls := hperm.filterMap (Observation.call? b.granularity)
  have hnames : ∀ s, s ∈ (b.observeAll l).vertices.items
      ↔ s ∈ (b.observeAll l').vertices.items := fun s => by
    simp only [mem_vertices_observeAll hopen, hcalls.mem_iff]
  refine ⟨fun s hs => (hnames s).mp hs, fun s hs t ht => ?_⟩
  rw [callsNamed_graph hs ht, callsNamed_graph ((hnames s).mpr hs) ((hnames t).mpr ht),
    calls_observeAll, calls_observeAll, sumOver_eq_sum_map, sumOver_eq_sum_map]
  exact ((hcalls.append_left _).map _).sum_eq

end Builder

namespace CallGraph

/-- The graph of a list of observations, whatever they add up to. -/
def observed (observations : List Observation) : CallGraph :=
  ((Builder.empty false .perMethod).observeAll observations).graph

theorem ofObservations_eq_ok_iff {l : List Observation} {g : CallGraph} :
    ofObservations l = .ok g ↔ (observed l).totalWeight ≤ maxTotalWeight ∧ observed l = g := by
  rw [observed, Builder.totalWeight_graph]
  exact Builder.build_eq_ok_iff

/-- **A permuted list is observed with the same names and calls.** -/
theorem holds_observed {l l' : List Observation} (hperm : l'.Perm l) :
    Holds (observed l) (observed l') := Builder.holds_of_perm rfl hperm

end CallGraph

/-! ## The same names in another order -/

/-- The partition after visits from `a`, to the vertices of the given names in their order. -/
def CallGraph.visited (g : CallGraph) (a : Assignment) (names : List String) : Assignment :=
  ((names.filterMap g.vertexOf?).foldl (Moving.visit g.linkView)
    (Moving.start g.linkView a)).assignment

namespace CallGraph

variable {g h : CallGraph} {a b : Assignment} {s : String}

/-- Names are of vertices where they are found. -/
theorem lt_of_mem_filterMap {names : List String} :
    ∀ v ∈ names.filterMap g.vertexOf?, v < g.vertexCount := by
  intro v hv
  obtain ⟨s, -, hs⟩ := List.mem_filterMap.mp hv
  exact (vertexOf?_eq_some_iff.mp hs).1

namespace Holds

variable (hH : Holds g h)
include hH

/-- With the vertices in the same order, the calls without directions are the same. -/
theorem linkWeight_eq_of_vertices (hv : h.vertices = g.vertices) (u v : ℕ) :
    h.linkWeight u v = g.linkWeight u v := by
  have hcount : h.vertexCount = g.vertexCount := congrArg Roster.size hv
  have hname : ∀ x, h.name x = g.name x := fun x => by simp only [name, hv]
  refine linkWeight_ext hcount (fun u hu v hv => ?_) u v
  rw [linkWeight_eq_callsNamed (hcount.symm ▸ hu) (hcount.symm ▸ hv),
    linkWeight_eq_callsNamed hu hv, hname, hname, hH.callsNamed_congr, hH.callsNamed_congr]

variable (hback : Holds h g)
include hback

theorem vertexOf?_eq_map (s : String) : h.vertexOf? s = (g.vertexOf? s).map (g.counterpart h) := by
  by_cases hs : s ∈ g.vertices.items
  · obtain ⟨v, hv, rfl⟩ := exists_name_eq hs
    rw [vertexOf?_name hv, Option.map_some]
    exact vertexOf?_eq_some_iff.mpr (hH.counterpart_spec hv)
  · rw [vertexOf?_eq_none hs, vertexOf?_eq_none fun hs' => hs (hback.mem s hs')]
    rfl

/-- **Spread partitions are written down alike.** -/
theorem toNames_spread (ha : a.Valid g.vertexCount) :
    toNames h (a.spread (g.counterpart h) g h) = toNames g a := by
  refine SortedMap.ext_get? fun s => ?_
  by_cases hs : s ∈ g.vertices.items
  · exact hH.get?_spread ha hs
  · rw [get?_toNames_eq_none _ hs, get?_toNames_eq_none _ fun hs' => hs (hback.mem s hs')]

section ByName

variable (ha : a.Valid g.vertexCount) (hb : b.Valid h.vertexCount)
  (hab : toNames h b = toNames g a)
include ha hb hab

theorem eq_spread_of_toNames : b = a.spread (g.counterpart h) g h :=
  toNames_injOn hb (hH.embeds.valid_spread ha) (hab.trans (hH.toNames_spread hback ha).symm)

theorem toNames_refine : toNames h (b.refine h.linkView) = toNames g (a.refine g.linkView) := by
  rw [hH.eq_spread_of_toNames hback ha hb hab, hH.embeds.refine_spread Nat.one_pos ha]
  exact hH.toNames_spread hback (valid_refine g a)

theorem toNames_canonicalize :
    toNames h (b.canonicalize h.linkView) = toNames g (a.canonicalize g.linkView) := by
  rw [hH.eq_spread_of_toNames hback ha hb hab, hH.embeds.canonicalize_spread ha]
  exact hH.toNames_spread hback (canonical_canonicalize ha.1).valid

/-- **Visits to the same names in the same order agree by name**, ties included. -/
theorem toNames_visited (names : List String) :
    toNames h (h.visited b names) = toNames g (g.visited a names) := by
  have hstart : Moving.Follows (g.counterpart h) g h (Moving.start g.linkView a)
      (Moving.start h.linkView b) :=
    ⟨Moving.sound_start ha, Moving.sound_start hb, hH.eq_spread_of_toNames hback ha hb hab, rfl⟩
  have hplaces : names.filterMap h.vertexOf?
      = (names.filterMap g.vertexOf?).map (g.counterpart h) := by
    rw [List.map_filterMap]
    exact List.filterMap_congr fun s _ => hH.vertexOf?_eq_map hback s
  have hplaced : (names.filterMap h.vertexOf?).filter (· ∈ g.placed (g.counterpart h))
      = (names.filterMap g.vertexOf?).map (g.counterpart h) := by
    rw [hplaces, List.filter_eq_self]
    intro x hx
    obtain ⟨v, hv, rfl⟩ := List.mem_map.mp hx
    exact decide_eq_true (mem_placed_of_lt (lt_of_mem_filterMap v hv))
  have hend := hstart.foldl_visit hH.embeds Nat.one_pos lt_of_mem_filterMap lt_of_mem_filterMap
    hplaced
  rw [visited, hend.assignment_eq]
  exact hH.toNames_spread hback hend.sound.valid

end ByName

end Holds

end CallGraph

/-! ## Detection -/

/-- **The order of the observations decides the order of first mention and nothing else.**  Of a list of
observations and a permutation of it, both are accepted or none.  The two graphs have the same names
and the same calls by name.  From partitions that agree by name, visits to the same names in the same
order agree by name, whichever way ties fall, and so do splitting and canonical forms.  And if the
names are first mentioned in the same order, detection finds the same, with any settings. -/
theorem detection_enumerated {l l' : List Observation} (hperm : l'.Perm l) {g : CallGraph}
    (hg : CallGraph.ofObservations l = .ok g) :
    ∃ h, CallGraph.ofObservations l' = .ok h
      ∧ (∀ s, s ∈ h.vertices.items ↔ s ∈ g.vertices.items)
      ∧ (∀ s t, h.callsNamed s t = g.callsNamed s t)
      ∧ (∀ a b : Assignment, a.Valid g.vertexCount → b.Valid h.vertexCount →
        toNames h b = toNames g a →
        (∀ names, toNames h (h.visited b names) = toNames g (g.visited a names))
        ∧ toNames h (b.refine h.linkView) = toNames g (a.refine g.linkView)
        ∧ toNames h (b.canonicalize h.linkView) = toNames g (a.canonicalize g.linkView))
      ∧ (h.vertices = g.vertices → ∀ settings, detect settings h = detect settings g) := by
  obtain ⟨hbound, rfl⟩ := ofObservations_eq_ok_iff.mp hg
  have hH := holds_observed hperm
  have hback := holds_observed hperm.symm
  have hbound' : (observed l').totalWeight ≤ maxTotalWeight := by
    rwa [hH.embeds.totalWeight_eq, Nat.one_mul]
  refine ⟨observed l', ofObservations_eq_ok_iff.mpr ⟨hbound', rfl⟩,
    fun s => ⟨hback.mem s, hH.mem s⟩, hH.callsNamed_congr, fun a b ha hb hab => ?_,
    fun hv settings => detect_congr settings hv (hH.linkWeight_eq_of_vertices hv)⟩
  exact ⟨hH.toNames_visited hback ha hb hab, hH.toNames_refine hback ha hb hab,
    hH.toNames_canonicalize hback ha hb hab⟩

/-- The calls along a path. -/
def pathCalls : List Observation := [⟨"a", "b", 1⟩, ⟨"b", "c", 2⟩, ⟨"d", "c", 2⟩]

/-- The same calls, with `d` mentioned before `c`. -/
def pathCallsReordered : List Observation := [⟨"a", "b", 1⟩, ⟨"d", "c", 2⟩, ⟨"b", "c", 2⟩]

/-- With `d` before `c`, visits to the four in one order still agree.  And where `d` is mentioned last,
a call from `c` to `a` may be told before or after the one from `d`. -/
theorem detection_enumerated_path :
    (∃ g h, ofObservations pathCalls = .ok g ∧ ofObservations pathCallsReordered = .ok h
      ∧ toNames h (singletons h.vertexCount) = toNames g (singletons g.vertexCount)
      ∧ toNames h (h.visited (singletons h.vertexCount) ["a", "b", "c", "d"])
        = toNames g (g.visited (singletons g.vertexCount) ["a", "b", "c", "d"]))
    ∧ ∃ g h, ofObservations [⟨"a", "b", 1⟩, ⟨"b", "c", 2⟩, ⟨"d", "c", 2⟩, ⟨"c", "a", 1⟩] = .ok g
      ∧ ofObservations [⟨"a", "b", 1⟩, ⟨"b", "c", 2⟩, ⟨"c", "a", 1⟩, ⟨"d", "c", 2⟩] = .ok h
      ∧ h.vertices = g.vertices ∧ detect .default h = detect .default g := by
  constructor
  · have hg : ofObservations pathCalls = .ok (observed pathCalls) :=
      ofObservations_eq_ok_iff.mpr ⟨by decide +kernel, rfl⟩
    have hperm : pathCallsReordered.Perm pathCalls := by decide
    obtain ⟨h, hh, -, -, hties, -⟩ := detection_enumerated hperm hg
    obtain ⟨-, rfl⟩ := ofObservations_eq_ok_iff.mp hh
    have hsingle : toNames (observed pathCallsReordered)
          (singletons (observed pathCallsReordered).vertexCount)
        = toNames (observed pathCalls) (singletons (observed pathCalls).vertexCount) := by
      refine SortedMap.ext_entries ?_
      decide +kernel
    exact ⟨_, _, hg, hh, hsingle,
      (hties _ _ (valid_singletons _) (valid_singletons _) hsingle).1 _⟩
  · have hg := ofObservations_eq_ok_iff (l := [⟨"a", "b", 1⟩, ⟨"b", "c", 2⟩, ⟨"d", "c", 2⟩,
      ⟨"c", "a", 1⟩]).mpr ⟨by decide +kernel, rfl⟩
    have hperm : [⟨"a", "b", 1⟩, ⟨"b", "c", 2⟩, ⟨"c", "a", 1⟩, ⟨"d", "c", 2⟩].Perm
        [(⟨"a", "b", 1⟩ : Observation), ⟨"b", "c", 2⟩, ⟨"d", "c", 2⟩, ⟨"c", "a", 1⟩] := by decide
    obtain ⟨h, hh, -, -, -, hsame⟩ := detection_enumerated hperm hg
    obtain ⟨-, rfl⟩ := ofObservations_eq_ok_iff.mp hh
    have hv : (observed [⟨"a", "b", 1⟩, ⟨"b", "c", 2⟩, ⟨"c", "a", 1⟩, ⟨"d", "c", 2⟩]).vertices
        = (observed [⟨"a", "b", 1⟩, ⟨"b", "c", 2⟩, ⟨"d", "c", 2⟩, ⟨"c", "a", 1⟩]).vertices := by
      decide +kernel
    exact ⟨_, _, hg, hh, hv, hsame hv .default⟩

/-- **The order of first mention matters.**  Along the path, visited in turn, `c` leaves `b` for `d`.
When `d` comes first it joins `b` and `c` where they are, and there they all stay. -/
theorem order_of_mention_matters :
    ¬ ∀ (l l' : List Observation) (g h : CallGraph), l'.Perm l →
      CallGraph.ofObservations l = .ok g → CallGraph.ofObservations l' = .ok h →
      (detect .default h).assignment = (detect .default g).assignment := by
  intro hall
  have hsame := hall pathCalls pathCallsReordered _ _ (by decide)
    (ofObservations_eq_ok_iff.mpr ⟨by decide +kernel, rfl⟩)
    (ofObservations_eq_ok_iff.mpr ⟨by decide +kernel, rfl⟩)
  have hc : (detect .default (observed pathCallsReordered)).assignment.get? "c"
      = (detect .default (observed pathCalls)).assignment.get? "c" := by rw [hsame]
  revert hc
  decide +kernel

end CallCommunities
