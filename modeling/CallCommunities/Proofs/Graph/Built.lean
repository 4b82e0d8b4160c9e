import CallCommunities.CallGraph.Builder
import CallCommunities.Proofs.Graph.Names
import CallCommunities.Proofs.Partition.Blocks

/-!
# Proofs/Graph/Built — what a built graph holds

A builder keeps the calls it was told of by name.  Building looks the names up, so **the weights of
the built graph add up the calls between the names of two vertices** (`linkWeight_graph`), and its
total adds up the calls kept (`totalWeight_graph`).

Observations only append calls (`calls_observeAll`), and once all names they mention are declared they
leave the vertices alone (`vertices_observeAll`).
-/

namespace CallCommunities

open CallGraph

/-! ## Graphs from arcs between vertices -/

/-- Arcs that join vertices, with or without calls, add up to the weights of their graph. -/
theorem weight_ofArcs_of_lt {vertices : Roster String} {arcs : List Arc}
    (h : ∀ e ∈ arcs, e.source < vertices.size ∧ e.target < vertices.size) (s t : ℕ) :
    (ofArcs vertices arcs).weight s t
      = sumOver (fun e => if (e.source, e.target) = (s, t) then e.weight else 0) arcs := by
  have hfit : ∀ e ∈ arcs.filter fun e => decide (e.Fits vertices.size), e.Fits vertices.size :=
    fun e he => of_decide_eq_true (List.mem_filter.mp he).2
  have hsame : ofArcs vertices arcs
      = ofArcs vertices (arcs.filter fun e => decide (e.Fits vertices.size)) := by
    simp only [ofArcs, List.filter_filter, Bool.and_self]
  rw [hsame, weight_ofArcs hfit, sumOver_filter]
  refine sumOver_congr fun e he => ?_
  -- An arc that does not fit has no calls.
  rcases Nat.eq_zero_or_pos e.weight with hzero | hpos
  · simp [hzero]
  · rw [if_pos ⟨(h e he).1, (h e he).2, hpos⟩]

/-- **What arcs carry between certain vertices is carried by the arcs of their graph.** -/
theorem sumOver_arcs_ofArcs {vertices : Roster String} {arcs : List Arc}
    (h : ∀ e ∈ arcs, e.source < vertices.size ∧ e.target < vertices.size) (p : ℕ → ℕ → Prop)
    [DecidableRel p] :
    sumOver (fun e => if p e.source e.target then e.weight else 0) (ofArcs vertices arcs).arcs
      = sumOver (fun e => if p e.source e.target then e.weight else 0) arcs := by
  have hset : (ofArcs vertices arcs).vertexSet = Finset.range vertices.size := rfl
  refine (sumOver_arcs _ (fun s t w => if p s t then w else 0) (by simp)).trans ?_
  simp only [weight_ofArcs_of_lt h, hset]
  clear hset
  induction arcs with
  | nil => simp
  | cons e rest ih =>
    have hrest := ih fun e he => h e (List.mem_cons_of_mem _ he)
    have he := h e (by simp)
    have hfirst : (∑ s ∈ Finset.range vertices.size, ∑ t ∈ Finset.range vertices.size,
        if p s t then if (e.source, e.target) = (s, t) then e.weight else 0 else 0)
          = if p e.source e.target then e.weight else 0 := by
      rw [Finset.sum_eq_single_of_mem e.source (Finset.mem_range.mpr he.1) fun s _ hs => by
        simp [Ne.symm hs], Finset.sum_eq_single_of_mem e.target (Finset.mem_range.mpr he.2)
          fun t _ ht => by simp [Ne.symm ht], if_pos rfl]
    rw [sumOver_cons, ← hfirst, ← hrest, ← Finset.sum_add_distrib]
    refine Finset.sum_congr rfl fun s _ => ?_
    rw [← Finset.sum_add_distrib]
    exact Finset.sum_congr rfl fun t _ => by split <;> simp

theorem totalWeight_ofArcs_of_lt {vertices : Roster String} {arcs : List Arc}
    (h : ∀ e ∈ arcs, e.source < vertices.size ∧ e.target < vertices.size) :
    (ofArcs vertices arcs).totalWeight = sumOver Arc.weight arcs :=
  sumOver_arcs_ofArcs h fun _ _ => True

/-! ## Calls by name -/

/-- The names of both ends of a call. -/
def NamedCall.ends (call : NamedCall) : List String := [call.caller, call.callee]

/-- Whether a call joins two names, in whatever direction. -/
def NamedCall.Joins (call : NamedCall) (s t : String) : Prop :=
  (call.caller = s ∧ call.callee = t) ∨ (call.caller = t ∧ call.callee = s)

instance (call : NamedCall) (s t : String) : Decidable (call.Joins s t) :=
  inferInstanceAs (Decidable (_ ∨ _))

/-- The calls between two names, in both directions together. -/
def callsJoining (calls : List NamedCall) (s t : String) : ℕ :=
  sumOver NamedCall.weight (calls.filter fun call => call.Joins s t)

theorem callsJoining_append (l l' : List NamedCall) (s t : String) :
    callsJoining (l ++ l') s t = callsJoining l s t + callsJoining l' s t := by
  rw [callsJoining, List.filter_append, sumOver_append]
  rfl

/-- The call that an observation records, unless its count is zero or negative. -/
def Observation.call? (granularity : Granularity) (o : Observation) : Option NamedCall :=
  if o.count ≤ 0 then none
  else some ⟨granularity.resolve o.caller, granularity.resolve o.callee, o.count.toNat⟩

/-- The calls that observations count between two names, in both directions together. -/
def callsBetween (granularity : Granularity) (observations : List Observation) (s t : String) :
    ℕ :=
  callsJoining (observations.filterMap (Observation.call? granularity)) s t

namespace Builder

variable {b b' : Builder} {e : Arc} {u v : ℕ}

/-- The graph of the calls kept, whatever they add up to. -/
def graph (b : Builder) : CallGraph := .ofArcs b.vertices b.kept

theorem build_eq_ok_iff {g : CallGraph} :
    b.build = .ok g ↔ sumOver Arc.weight b.kept ≤ maxTotalWeight ∧ b.graph = g := by
  unfold build
  split
  · exact iff_of_false (fun h => by cases h) fun h => by omega
  · rw [Except.ok.injEq]
    exact (and_iff_right (by omega)).symm

theorem arc?_eq_some_iff {vertices : Roster String} {call : NamedCall} :
    arc? vertices call = some e ↔ vertices.items[e.source]? = some call.caller
      ∧ vertices.items[e.target]? = some call.callee ∧ e.weight = call.weight := by
  rw [← Roster.indexOf?_eq_some_iff, ← Roster.indexOf?_eq_some_iff]
  simp only [arc?, Option.bind_eq_bind, Option.bind_eq_some_iff, Option.pure_def, Option.some_inj]
  constructor
  · rintro ⟨source, hsource, target, htarget, rfl⟩
    exact ⟨hsource, htarget, rfl⟩
  · rintro ⟨hsource, htarget, hweight⟩
    exact ⟨_, hsource, _, htarget, by rw [← hweight]⟩

/-- A call has an arc when both its ends are vertices. -/
theorem isSome_arc?_iff {vertices : Roster String} {call : NamedCall} :
    (arc? vertices call).isSome = true
      ↔ call.caller ∈ vertices.items ∧ call.callee ∈ vertices.items := by
  rw [Option.isSome_iff_exists]
  constructor
  · rintro ⟨e, he⟩
    obtain ⟨hsource, htarget, -⟩ := arc?_eq_some_iff.mp he
    exact ⟨List.mem_of_getElem? hsource, List.mem_of_getElem? htarget⟩
  · rintro ⟨hcaller, hcallee⟩
    obtain ⟨source, hsource⟩ := List.getElem?_of_mem hcaller
    obtain ⟨target, htarget⟩ := List.getElem?_of_mem hcallee
    exact ⟨⟨source, target, call.weight⟩, arc?_eq_some_iff.mpr ⟨hsource, htarget, rfl⟩⟩

theorem lt_of_mem_kept (h : e ∈ b.kept) :
    e.source < b.vertices.size ∧ e.target < b.vertices.size := by
  obtain ⟨call, -, hcall⟩ := List.mem_filterMap.mp h
  obtain ⟨hsource, htarget, -⟩ := arc?_eq_some_iff.mp hcall
  exact ⟨(List.getElem?_eq_some_iff.mp hsource).1, (List.getElem?_eq_some_iff.mp htarget).1⟩

/-- **The calls kept are those between vertices.** -/
theorem sum_kept (b : Builder) : sumOver Arc.weight b.kept = sumOver (fun call =>
    if call.caller ∈ b.vertices.items ∧ call.callee ∈ b.vertices.items then call.weight else 0)
    b.calls.toList := by
  rw [kept, sumOver_filterMap]
  refine sumOver_congr fun call _ => ?_
  rw [if_congr isSome_arc?_iff.symm rfl rfl]
  cases harc : arc? b.vertices call with
  | none => rfl
  | some e => exact (arc?_eq_some_iff.mp harc).2.2

theorem totalWeight_graph (b : Builder) : b.graph.totalWeight = sumOver Arc.weight b.kept :=
  totalWeight_ofArcs_of_lt fun _ => lt_of_mem_kept

/-- Kept arcs that have weight are all in the graph. -/
theorem weights_graph (h : ∀ e ∈ b.kept, 0 < e.weight) : b.graph.weights = accumulate b.kept :=
  weights_ofArcs fun e he => ⟨(lt_of_mem_kept he).1, (lt_of_mem_kept he).2, h e he⟩

/-- **A builder builds its graph, unless that has more calls than the limit.** -/
theorem build_eq (b : Builder) : b.build =
    if maxTotalWeight < b.graph.totalWeight then .error (.weightOverflow maxTotalWeight)
    else .ok b.graph := by
  rw [totalWeight_graph]
  rfl

/-- Building fails only when the calls add up to more than the limit. -/
theorem build_eq_error_iff {cause : Error} : b.build = .error cause
    ↔ maxTotalWeight < b.graph.totalWeight ∧ cause = .weightOverflow maxTotalWeight := by
  rw [build_eq]
  split
  · rename_i hlt
    rw [Except.error.injEq, and_iff_right hlt, eq_comm]
  · rename_i hle
    exact iff_of_false (fun h => by cases h) fun h => hle h.1

/-- What is built depends on the graph alone. -/
theorem build_congr (h : b'.graph = b.graph) : b'.build = b.build := by
  rw [build_eq, build_eq, h]

/-- **The weights of the built graph add up the calls between the names.** -/
theorem weight_graph (hu : u < b.graph.vertexCount) (hv : v < b.graph.vertexCount) :
    b.graph.weight u v = sumOver (fun call => if call.caller = b.graph.name u
      ∧ call.callee = b.graph.name v then call.weight else 0) b.calls.toList := by
  rw [graph, weight_ofArcs_of_lt fun _ => lt_of_mem_kept, kept, sumOver_filterMap]
  refine sumOver_congr fun call _ => ?_
  have hnames : ∀ {s x}, x < b.graph.vertexCount →
      (b.vertices.items[x]? = some s ↔ b.graph.name x = s) := fun hx =>
    (getElem?_items (g := b.graph)).trans (and_iff_right hx)
  rcases hcall : arc? b.vertices call with _ | ⟨x, y, w⟩
  · rw [if_neg]
    · rfl
    · rintro ⟨hcaller, hcallee⟩
      have hfound : arc? b.vertices call = some ⟨u, v, call.weight⟩ :=
        arc?_eq_some_iff.mpr ⟨(hnames hu).mpr hcaller.symm, (hnames hv).mpr hcallee.symm, rfl⟩
      rw [hcall] at hfound
      cases hfound
  · obtain ⟨hx, hy, rfl⟩ := arc?_eq_some_iff.mp hcall
    have hx' : x < b.graph.vertexCount := (List.getElem?_eq_some_iff.mp hx).1
    have hy' : y < b.graph.vertexCount := (List.getElem?_eq_some_iff.mp hy).1
    rw [← (hnames hx').mp hx, ← (hnames hy').mp hy]
    refine if_congr ?_ rfl rfl
    rw [Prod.mk.injEq]
    exact and_congr ⟨fun h => h ▸ rfl, name_injOn hx' hu⟩ ⟨fun h => h ▸ rfl, name_injOn hy' hv⟩

/-- **Without directions, they add up the calls that join the names**, those of a vertex with itself
twice. -/
theorem linkWeight_graph (hu : u < b.graph.vertexCount) (hv : v < b.graph.vertexCount) :
    b.graph.linkWeight u v
      = (if u = v then 2 else 1)
        * callsJoining b.calls.toList (b.graph.name u) (b.graph.name v) := by
  have hname : b.graph.name u = b.graph.name v ↔ u = v :=
    ⟨name_injOn hu hv, fun h => h ▸ rfl⟩
  rw [linkWeight, weight_graph hu hv, weight_graph hv hu, ← sumOver_add, callsJoining,
    sumOver_filter, ← sumOver_mul]
  refine sumOver_congr fun call _ => ?_
  simp only [NamedCall.Joins]
  grind

theorem name_graph_congr (h : b'.vertices = b.vertices) (v : ℕ) :
    b'.graph.name v = b.graph.name v := by
  simp only [graph, ofArcs, name, h]

/-- **A built graph is, up to directions, its names and the calls that join them.** -/
theorem linkWeight_graph_congr (hvertices : b'.vertices = b.vertices)
    (hcalls : ∀ s ∈ b.vertices.items, ∀ t ∈ b.vertices.items,
      callsJoining b'.calls.toList s t = callsJoining b.calls.toList s t)
    (u v : ℕ) : b'.graph.linkWeight u v = b.graph.linkWeight u v := by
  have hcount : b'.graph.vertexCount = b.graph.vertexCount := congrArg Roster.size hvertices
  have hname := name_graph_congr hvertices
  refine linkWeight_ext hcount (fun u hu v hv => ?_) u v
  rw [linkWeight_graph (hcount.symm ▸ hu) (hcount.symm ▸ hv), linkWeight_graph hu hv, hname, hname,
    hcalls _ (name_mem hu) _ (name_mem hv)]

/-! ## Observations -/

/-- Whether observations bring up no name that is not declared; in a closed builder they cannot. -/
def Knows (b : Builder) (observations : List Observation) : Prop :=
  b.isClosed = true ∨ ∀ o ∈ observations, 0 < o.count →
    b.granularity.resolve o.caller ∈ b.vertices.items
      ∧ b.granularity.resolve o.callee ∈ b.vertices.items

theorem observe_kind (b : Builder) (o : Observation) :
    (b.observe o).granularity = b.granularity ∧ (b.observe o).isClosed = b.isClosed := by
  unfold observe
  split <;> exact ⟨rfl, rfl⟩

theorem calls_observe (b : Builder) (o : Observation) :
    (b.observe o).calls.toList = b.calls.toList ++ (o.call? b.granularity).toList := by
  unfold observe Observation.call?
  split
  · exact (List.append_nil _).symm
  · exact Array.toList_push

/-- **Observations append calls.** -/
theorem calls_observeAll : ∀ (l : List Observation) (b : Builder),
    (b.observeAll l).calls.toList
      = b.calls.toList ++ l.filterMap (Observation.call? b.granularity)
  | [], b => (List.append_nil _).symm
  | o :: l, b => by
    have hrest := calls_observeAll l (b.observe o)
    rw [calls_observe, (observe_kind b o).1, List.append_assoc] at hrest
    refine hrest.trans (congrArg _ ?_)
    rcases hcall : o.call? b.granularity with _ | call <;> simp [hcall]

/-- Observations of declared names leave the vertices alone. -/
theorem vertices_observeAll : ∀ {l : List Observation} {b : Builder}, b.Knows l →
    (b.observeAll l).vertices = b.vertices
  | [], _, _ => rfl
  | o :: l, b, h => by
    have hfirst : (b.observe o).vertices = b.vertices := by
      unfold observe
      split
      · rfl
      · rename_i hpos
        rcases h with hclosed | hknown
        · simp [hclosed]
        · obtain ⟨hcaller, hcallee⟩ := hknown o (by simp) (by omega)
          simp [Roster.mention_of_mem hcaller, Roster.mention_of_mem hcallee]
    obtain ⟨hgranularity, hclosed⟩ := observe_kind b o
    have hrest : (b.observe o).Knows l := by
      rw [Knows, hgranularity, hclosed, hfirst]
      exact h.imp_right fun hknown p hp => hknown p (List.mem_cons_of_mem _ hp)
    exact (vertices_observeAll hrest).trans hfirst

/-- **The vertices of an open builder are the ends of its calls**, in order of first mention. -/
theorem vertices_observeAll_of_open : ∀ (l : List Observation) {b : Builder}, b.isClosed = false →
    (b.observeAll l).vertices = ((l.filterMap (Observation.call? b.granularity)).flatMap
      NamedCall.ends).foldl Roster.mention b.vertices
  | [], _, _ => rfl
  | o :: l, b, hopen => by
    obtain ⟨hgranularity, hclosed⟩ := observe_kind b o
    have hfirst : (b.observe o).vertices
        = ((o.call? b.granularity).toList.flatMap NamedCall.ends).foldl Roster.mention b.vertices := by
      unfold observe Observation.call?
      split
      · rfl
      · rw [hopen]
        rfl
    refine (vertices_observeAll_of_open l (hclosed.trans hopen)).trans ?_
    rw [hgranularity, hfirst, ← List.foldl_append, ← List.flatMap_append]
    cases hcall : o.call? b.granularity <;> simp [hcall]

/-- **An open builder has the names that the calls mention**, whatever their order. -/
theorem mem_vertices_observeAll {l : List Observation} {s : String} (hopen : b.isClosed = false) :
    s ∈ (b.observeAll l).vertices.items ↔ s ∈ b.vertices.items
      ∨ ∃ call ∈ l.filterMap (Observation.call? b.granularity), s ∈ call.ends := by
  rw [vertices_observeAll_of_open l hopen, Roster.mem_foldl_mention, List.mem_flatMap]

end Builder

/-! ## Another unit of counting -/

/-- What a builder can be told: of a vertex, or of calls. -/
inductive Mention where
  | declare (identity : String)
  | observe (observation : Observation)

/-- The same calls, counted in a unit `c` times as small.  What is no call stays as it is. -/
def Observation.times (c : ℕ) (o : Observation) : Observation :=
  if 0 < o.count then { o with count := c * o.count } else o

/-- The same mention, with its calls counted in a unit `c` times as small. -/
def Mention.times (c : ℕ) : Mention → Mention
  | declare identity => declare identity
  | observe o => observe (o.times c)

namespace Builder

variable {c : ℕ}

/-- Takes in one mention. -/
def take (b : Builder) : Mention → Builder
  | .declare identity => b.declare identity
  | .observe o => b.observe o

/-- Takes in mentions in order. -/
def takeAll (b : Builder) (mentions : List Mention) : Builder := mentions.foldl take b

/-- The builder that has heard of every call `c` times. -/
def times (c : ℕ) (b : Builder) : Builder :=
  { b with calls := b.calls.map fun call => { call with weight := c * call.weight } }

theorem times_empty (c : ℕ) (isClosed : Bool) (granularity : Granularity) :
    (empty isClosed granularity).times c = empty isClosed granularity := by
  simp only [times, empty, Array.map_empty]

theorem observe_times (hc : 0 < c) (b : Builder) (o : Observation) :
    (b.times c).observe (o.times c) = (b.observe o).times c := by
  unfold observe Observation.times
  by_cases hpos : 0 < o.count
  · have hscaled : ¬ (c * o.count ≤ 0) :=
      not_le.mpr (Int.mul_pos (Int.natCast_pos.mpr hc) hpos)
    have hcount : (c * o.count).toNat = c * o.count.toNat := by
      rw [Int.toNat_mul (Int.natCast_nonneg c) hpos.le, Int.toNat_natCast]
    simp only [if_pos hpos, if_neg (not_le.mpr hpos), if_neg hscaled, hcount, times,
      Array.map_push]
  · simp only [if_neg hpos, if_pos (not_lt.mp hpos), times]

/-- **Multiplying what a builder is told multiplies its calls and nothing else.** -/
theorem takeAll_times (hc : 0 < c) : ∀ (mentions : List Mention) (b : Builder),
    (b.times c).takeAll (mentions.map (.times c)) = (b.takeAll mentions).times c
  | [], _ => rfl
  | .declare identity :: mentions, b => takeAll_times hc mentions (b.declare identity)
  | .observe o :: mentions, b => by
    have hrest := takeAll_times hc mentions (b.observe o)
    rwa [← observe_times hc] at hrest

theorem kept_times (c : ℕ) (b : Builder) :
    (b.times c).kept = b.kept.map fun e => { e with weight := c * e.weight } := by
  simp only [kept, times, Array.toList_map, List.filterMap_map, List.map_filterMap]
  refine List.filterMap_congr fun call _ => ?_
  simp only [arc?, Function.comp_apply]
  cases b.vertices.indexOf? call.caller <;> cases b.vertices.indexOf? call.callee <;> rfl

theorem sum_kept_times (c : ℕ) (b : Builder) :
    sumOver Arc.weight (b.times c).kept = c * sumOver Arc.weight b.kept := by
  rw [kept_times, sumOver_map, sumOver_mul]

theorem weight_graph_times (c : ℕ) (b : Builder) (s t : ℕ) :
    (b.times c).graph.weight s t = c * b.graph.weight s t := by
  rw [graph, weight_ofArcs_of_lt fun _ => lt_of_mem_kept, graph,
    weight_ofArcs_of_lt fun _ => lt_of_mem_kept, kept_times, sumOver_map, ← sumOver_mul]
  exact sumOver_congr fun e _ => (mul_ite_zero _ _ _).symm

end Builder

end CallCommunities
