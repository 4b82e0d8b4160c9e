import CallCommunities.Proofs.Partition.Blocks
import CallCommunities.Proofs.Graph.Built

/-!
# Proofs/Graph/Classes — the graph of the classes is a quotient

There are two ways to the classes of a program: to resolve every identity to its class when it is
observed, or to build the graph of the methods and merge the methods of each class.  **Both lead to the
same graph but for the names** (`classes_are_quotients`), which is the class in the one and a method of
it in the other.

Names are folded in the order of first mention, and that order composes: a class comes first where its
first method does, and so does the community of its methods, whatever vertex identifies it.  So a method
is merged into the vertex of its class (`Folds.vertexOf?_eq`), and no call of an open builder is left out
on either way.
-/

namespace CallCommunities

open Assignment CallGraph

/-- The call between the images of the names. -/
def NamedCall.rename (f : String → String) (call : NamedCall) : NamedCall :=
  ⟨f call.caller, f call.callee, call.weight⟩

/-! ## Graphs without names -/

namespace CallGraph

/-- Whether two graphs are the same but for the names of their vertices. -/
structure SameCalls (g h : CallGraph) : Prop where
  vertexCount_eq : g.vertexCount = h.vertexCount
  arcs_eq : g.arcs = h.arcs
  totalWeight_eq : g.totalWeight = h.totalWeight
  degree_eq : ∀ v, g.degree v = h.degree v
  loopWeight_eq : ∀ v, g.loopWeight v = h.loopWeight v
  outgoing_eq : ∀ v, g.outgoing v = h.outgoing v
  incident_eq : ∀ v, g.incident v = h.incident v

variable {g h : CallGraph}

/-- **All but the names is in the number of vertices and the weights.** -/
theorem sameCalls_of_weight (hcount : g.vertexCount = h.vertexCount)
    (hweight : ∀ x < h.vertexCount, ∀ y < h.vertexCount, g.weight x y = h.weight x y) :
    g.SameCalls h := by
  have hall := weight_ext hcount hweight
  have hweights : g.weights = h.weights := SortedMap.ext_get? fun ⟨x, y⟩ => by
    rw [get?_weights, get?_weights, hall]
  refine ⟨hcount, ?_, ?_, fun v => ?_, fun v => hall v v, fun v => ?_, fun v => ?_⟩
  · rw [arcs, arcs, hweights]
  · rw [totalWeight, totalWeight, arcs, arcs, hweights]
  · simp only [degree, outgoing, incoming, hweights]
  · rw [outgoing, outgoing, hweights]
  · have hlinks : ∀ u, g.linkWeight v u = h.linkWeight v u := fun u => by
      rw [linkWeight, linkWeight, hall, hall]
    simp only [incident_eq, hlinks, vertexList, hcount]

end CallGraph

/-! ## Partitions by name -/

/-- Whether a partition puts those vertices together whose names have one image. -/
def Assignment.GroupsBy (f : String → String) (g : CallGraph) (a : Assignment) : Prop :=
  ∀ u < g.vertexCount, ∀ v < g.vertexCount,
    (a.labelOf u = a.labelOf v ↔ f (g.name u) = f (g.name v))

instance (f : String → String) (g : CallGraph) (a : Assignment) : Decidable (a.GroupsBy f g) :=
  inferInstanceAs (Decidable (∀ u < g.vertexCount, ∀ v < g.vertexCount,
    (a.labelOf u = a.labelOf v ↔ f (g.name u) = f (g.name v))))

/-- There is always one: label a vertex by the first that has the image of its name. -/
theorem exists_groupsBy (f : String → String) (g : CallGraph) :
    ∃ a : Assignment, a.Valid g.vertexCount ∧ a.GroupsBy f g := by
  have hmem : ∀ v < g.vertexCount, f (g.name v) ∈ g.vertices.items.map f := fun v hv =>
    List.mem_map_of_mem (name_mem hv)
  refine ⟨tabulate g.vertexCount fun v => (g.vertices.items.map f).idxOf (f (g.name v)),
    valid_tabulate fun v hv => ?_, fun u hu v hv => ?_⟩
  · exact (List.idxOf_lt_length_of_mem (hmem v hv)).trans_eq (List.length_map f)
  · rw [labelOf_tabulate _ hu, labelOf_tabulate _ hv]
    exact List.idxOf_inj (hmem u hu)

/-! ## Folded names -/

namespace Builder

/-- Whether the second builder has the vertices and calls of the first under the images of their names,
and the first has both ends of all its calls. -/
structure Folds (f : String → String) (b b' : Builder) : Prop where
  vertices_eq : b'.vertices = .ofList (b.vertices.items.map f)
  calls_eq : b'.calls.toList = b.calls.toList.map (NamedCall.rename f)
  known : ∀ call ∈ b.calls.toList,
    call.caller ∈ b.vertices.items ∧ call.callee ∈ b.vertices.items

namespace Folds

variable {f : String → String} {b b' : Builder} (h : b.Folds f b')
include h

/-- The vertices are the images of the names, in the order of the vertices. -/
theorem vertices_eq_ofList :
    b'.vertices = .ofList (b.graph.vertexList.map fun v => f (b.graph.name v)) := by
  have hnames : b.vertices.items = b.graph.vertexList.map b.graph.name :=
    (map_name_vertexList b.graph).symm
  rw [h.vertices_eq, hnames, List.map_map]
  rfl

variable {a : Assignment} {u x y : ℕ} (hf : a.GroupsBy f b.graph)
include hf

/-- There are as many communities as images. -/
theorem size_communityRoster : (b.graph.communityRoster a).size = b'.graph.vertexCount := by
  have hcount : b'.graph.vertexCount
      = (Roster.ofList (b.graph.vertexList.map fun v => f (b.graph.name v))).size :=
    congrArg Roster.size h.vertices_eq_ofList
  rw [hcount]
  exact Roster.size_ofList_map_congr fun u hu v hv =>
    hf u (List.mem_range.mp hu) v (List.mem_range.mp hv)

/-- **A vertex is merged into the vertex that is the image of its name.** -/
theorem vertexOf?_eq (hu : u < b.graph.vertexCount) :
    b'.graph.vertexOf? (f (b.graph.name u)) = some (b.graph.placeOf a u) := by
  have hindex : (b.graph.communityRoster a).indexOf? (a.labelOf u)
      = b'.graph.vertexOf? (f (b.graph.name u)) := by
    have hvertices : b'.graph.vertices = _ := h.vertices_eq_ofList
    rw [vertexOf?, hvertices]
    exact Roster.indexOf?_ofList_map_congr (fun s hs t ht =>
      hf s (List.mem_range.mp hs) t (List.mem_range.mp ht)) (List.mem_range.mpr hu)
  obtain ⟨x, -, hx⟩ := Roster.exists_indexOf?_of_mem (mem_communityRoster.mpr ⟨u, hu, rfl⟩)
  rw [placeOf, ← hindex, hx, Option.getD_some]

theorem placeOf_eq_iff (hu : u < b.graph.vertexCount) (hx : x < b'.graph.vertexCount) :
    b.graph.placeOf a u = x ↔ f (b.graph.name u) = b'.graph.name x := by
  obtain ⟨hplace, hname⟩ := vertexOf?_eq_some_iff.mp (h.vertexOf?_eq hf hu)
  rw [← hname]
  exact ⟨congrArg _, name_injOn hplace hx⟩

/-- A call goes to the same arc, whether its ends are merged or their names folded. -/
theorem elim_arc? {call : NamedCall} (hcall : call ∈ b.calls.toList)
    (hx : x < b'.graph.vertexCount) (hy : y < b'.graph.vertexCount) :
    ((arc? b.vertices call).elim 0 fun e =>
        if ((b.graph.coarsen a).projection.getD e.source 0,
          (b.graph.coarsen a).projection.getD e.target 0) = (x, y) then e.weight else 0)
      = if f call.caller = b'.graph.name x ∧ f call.callee = b'.graph.name y then call.weight
        else 0 := by
  obtain ⟨⟨u, v, w⟩, he⟩ := Option.isSome_iff_exists.mp (isSome_arc?_iff.mpr (h.known call hcall))
  obtain ⟨hsource, htarget, rfl⟩ := arc?_eq_some_iff.mp he
  obtain ⟨hu, hcaller⟩ := getElem?_items (g := b.graph).mp hsource
  obtain ⟨hv, hcallee⟩ := getElem?_items (g := b.graph).mp htarget
  rw [he, Option.elim_some, getD_projection hu, getD_projection hv, ← hcaller, ← hcallee]
  refine if_congr ?_ rfl rfl
  rw [Prod.mk.injEq, h.placeOf_eq_iff hf hu hx, h.placeOf_eq_iff hf hv hy]

/-- **The calls between two communities are the calls between the two images.** -/
theorem weight_coarsen (ha : a.Valid b.graph.vertexCount) (hx : x < b'.graph.vertexCount)
    (hy : y < b'.graph.vertexCount) :
    (b.graph.coarsen a).graph.weight x y = b'.graph.weight x y := by
  calc (b.graph.coarsen a).graph.weight x y
    _ = sumOver (fun e => if ((b.graph.coarsen a).projection.getD e.source 0,
          (b.graph.coarsen a).projection.getD e.target 0) = (x, y) then e.weight else 0)
        b.graph.arcs := weight_coarsen_eq_sumOver ha x y
    _ = sumOver _ b.kept := sumOver_arcs_ofArcs (fun _ => lt_of_mem_kept) fun s t =>
        ((b.graph.coarsen a).projection.getD s 0, (b.graph.coarsen a).projection.getD t 0) = (x, y)
    _ = sumOver _ b.calls.toList := sumOver_filterMap _ _ _
    _ = sumOver (fun call => if f call.caller = b'.graph.name x ∧ f call.callee = b'.graph.name y
          then call.weight else 0) b.calls.toList :=
        sumOver_congr fun _ hcall => h.elim_arc? hf hcall hx hy
    _ = b'.graph.weight x y := by
        rw [weight_graph hx hy, h.calls_eq, sumOver_map]
        rfl

/-- **Merging the vertices whose names have one image gives the graph of the images.** -/
theorem sameCalls_coarsen (ha : a.Valid b.graph.vertexCount) :
    (b.graph.coarsen a).graph.SameCalls b'.graph :=
  sameCalls_of_weight ((vertexCount_coarsen ha).trans (h.size_communityRoster hf))
    fun _ hx _ hy => h.weight_coarsen hf ha hx hy

omit hf in
/-- So no call is left out on the way. -/
theorem totalWeight_eq : b'.graph.totalWeight = b.graph.totalWeight := by
  obtain ⟨a, ha, hf⟩ := exists_groupsBy f b.graph
  exact (h.sameCalls_coarsen hf ha).totalWeight_eq.symm.trans (totalWeight_coarsen ha)

end Folds

/-- Folding every identity to its class folds what an open builder holds. -/
theorem folds_classOf (l : List Observation) :
    ((empty false .perMethod).observeAll l).Folds classOf
      ((empty false .perClass).observeAll l) := by
  -- A class is the class of a method, so the one builder hears the images of what the other hears.
  have hcall : ∀ o : Observation,
      o.call? .perClass = (o.call? .perMethod).map (NamedCall.rename classOf) := fun o => by
    unfold Observation.call?
    split <;> rfl
  have hcalls : l.filterMap (Observation.call? .perClass)
      = (l.filterMap (Observation.call? .perMethod)).map (NamedCall.rename classOf) := by
    rw [List.map_filterMap]
    exact List.filterMap_congr fun o _ => hcall o
  have hvertices : ∀ granularity, ((empty false granularity).observeAll l).vertices
      = .ofList ((l.filterMap (Observation.call? granularity)).flatMap NamedCall.ends) :=
    fun _ => vertices_observeAll_of_open l rfl
  have hheld : ∀ granularity, ((empty false granularity).observeAll l).calls.toList
      = l.filterMap (Observation.call? granularity) := fun granularity =>
    (calls_observeAll l _).trans (List.nil_append _)
  refine ⟨?_, ?_, fun call hcall => ?_⟩
  · rw [hvertices, hvertices, ← Roster.ofList_map, hcalls, List.flatMap_map, List.map_flatMap]
    rfl
  · rw [hheld, hheld, hcalls]
  · rw [hheld] at hcall
    rw [hvertices, Roster.mem_ofList, Roster.mem_ofList, List.mem_flatMap, List.mem_flatMap]
    exact ⟨⟨call, hcall, by simp [NamedCall.ends]⟩, ⟨call, hcall, by simp [NamedCall.ends]⟩⟩

end Builder

/-- **The graph of the classes is the graph of the methods with the methods of each class merged.**
Either both are built or neither is.  The classes come in the order of their first methods, and
whatever valid partition puts the methods of each class together, and no others, its coarse graph has
the calls of the class graph: index for index, with each method in the vertex of its class. -/
theorem classes_are_quotients (l : List Observation) :
    (∀ cause, ((Builder.empty false .perClass).observeAll l).build = .error cause
      ↔ ((Builder.empty false .perMethod).observeAll l).build = .error cause)
    ∧ ∀ g, ((Builder.empty false .perMethod).observeAll l).build = .ok g →
      ∃ h, ((Builder.empty false .perClass).observeAll l).build = .ok h
        ∧ h.vertices.items = (g.vertices.items.map classOf).eraseDups
        ∧ (∃ a : Assignment, a.Valid g.vertexCount ∧ a.GroupsBy classOf g)
        ∧ ∀ a : Assignment, a.Valid g.vertexCount → a.GroupsBy classOf g →
          ∃ k, g.coarsen? a = .ok k ∧ k.graph.SameCalls h
            ∧ ∀ v < g.vertexCount, ∃ x, k.projection[v]? = some x
              ∧ h.vertexOf? (classOf (g.name v)) = some x := by
  have hfolds := Builder.folds_classOf l
  refine ⟨fun cause => ?_, fun g hg => ?_⟩
  · rw [Builder.build_eq_error_iff, Builder.build_eq_error_iff, hfolds.totalWeight_eq]
  · rw [Builder.build_eq_ok_iff, ← Builder.totalWeight_graph] at hg
    obtain ⟨hfits, rfl⟩ := hg
    refine ⟨_, Builder.build_eq_ok_iff.mpr ⟨?_, rfl⟩, ?_, exists_groupsBy _ _, fun a ha hf => ?_⟩
    · rwa [← Builder.totalWeight_graph, hfolds.totalWeight_eq]
    · rw [← Roster.items_ofList]
      exact congrArg Roster.items hfolds.vertices_eq
    · refine ⟨_, coarsen?_eq ha.1, hfolds.sameCalls_coarsen hf ha, fun v hv => ⟨_, ?_,
        hfolds.vertexOf?_eq hf hv⟩⟩
      rw [getElem?_projection, if_pos hv]

/-- Calls within a class, from a function without one, from an identity that is called like a class, and
to one with nothing before its dot. -/
def overlappingCalls : List Observation :=
  [⟨"Orders.place", "Orders.validate", 2⟩, ⟨"main", "Orders.place", 1⟩, ⟨"main", "Log.info", 0⟩,
    ⟨"Orders", ".hidden", 3⟩, ⟨".hidden", "Orders.validate", 1⟩]

/-- Its classes, each identified by a method of another, and two classes with too many calls. -/
theorem classes_are_quotients_overlapping :
    ((Builder.empty false .perClass).observeAll [⟨"Orders.place", "Orders.validate", 2 ^ 62⟩,
      ⟨"main", "Orders.place", 1⟩]).build = .error (.weightOverflow maxTotalWeight)
    ∧ ∃ g, ((Builder.empty false .perMethod).observeAll overlappingCalls).build = .ok g
      ∧ g.vertices.items = ["Orders.place", "Orders.validate", "main", "Orders", ".hidden"]
      ∧ Assignment.Valid g.vertexCount ⟨#[2, 2, 4, 2, 1]⟩
      ∧ Assignment.GroupsBy classOf g ⟨#[2, 2, 4, 2, 1]⟩
      ∧ ∃ h k, ((Builder.empty false .perClass).observeAll overlappingCalls).build = .ok h
        ∧ h.vertices.items = ["Orders", "main", ".hidden"]
        ∧ g.coarsen? ⟨#[2, 2, 4, 2, 1]⟩ = .ok k
        ∧ k.graph.vertices.items = ["main", ".hidden", "Orders.validate"]
        ∧ k.graph.SameCalls h ∧ h.loopWeight 0 = 2 ∧ h.incident 0 = [(1, 1), (2, 4)] := by
  have hfails := (classes_are_quotients [⟨"Orders.place", "Orders.validate", 2 ^ 62⟩,
    ⟨"main", "Orders.place", 1⟩]).1 (.weightOverflow maxTotalWeight)
  have hbuilt : ((Builder.empty false .perMethod).observeAll overlappingCalls).build
      = .ok ((Builder.empty false .perMethod).observeAll overlappingCalls).graph := by
    rw [Builder.build_eq_ok_iff]
    exact ⟨by decide +kernel, rfl⟩
  have hnames : ((Builder.empty false .perMethod).observeAll overlappingCalls).graph.vertices.items
      = ["Orders.place", "Orders.validate", "main", "Orders", ".hidden"] := by decide +kernel
  have hvalid : Assignment.Valid ((Builder.empty false .perMethod).observeAll
      overlappingCalls).graph.vertexCount ⟨#[2, 2, 4, 2, 1]⟩ := ⟨by decide +kernel, by decide +kernel⟩
  have hgroups : Assignment.GroupsBy classOf ((Builder.empty false .perMethod).observeAll
      overlappingCalls).graph ⟨#[2, 2, 4, 2, 1]⟩ := by decide +kernel
  obtain ⟨h, hh, hitems, -, hquotient⟩ :=
    (classes_are_quotients overlappingCalls).2 _ hbuilt
  obtain ⟨k, hk, hsame, -⟩ := hquotient _ hvalid hgroups
  obtain rfl := Except.ok.inj ((coarsen?_eq hvalid.1).symm.trans hk)
  refine ⟨hfails.mpr (Builder.build_eq_error_iff.mpr ⟨by decide +kernel, rfl⟩), _, hbuilt, hnames,
    hvalid, hgroups, h, _, hh, hitems.trans (by decide +kernel), hk, by decide +kernel, hsame, ?_, ?_⟩
  · rw [← hsame.loopWeight_eq]
    decide +kernel
  · rw [← hsame.incident_eq]
    decide +kernel

end CallCommunities
