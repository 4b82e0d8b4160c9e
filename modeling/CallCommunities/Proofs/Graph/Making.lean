import CallCommunities.Proofs.Graph.Tables
import CallCommunities.Proofs.Graph.Told

/-!
# Proofs/Graph/Making — all graphs that are ever made

A graph is built by a builder, or merged from another graph along an assignment; a `Making` says how.  The
same can be done on tables alone: a builder fills the tables, and merging numbers the communities as they
come up, names them after their identifiers, sends every listed arc to the places of its ends and fills new
tables.

While the communities are being numbered, what is known of them is a function of the vertices visited so
far (`Numbering.visit_after`).  So the tables of a graph become the tables of the merged graph
(`Tables.Tabulates.merge`), whatever the identifiers of the assignment are, and **every making gives a
well-formed graph and its tables, or fails with both** (`graphs_well_formed`).
-/

namespace CallCommunities

open CallGraph

/-! ## Numbering the communities -/

/-- What has come up of the communities of an assignment. -/
structure Numbering where
  /-- The number of each identifier that has come up. -/
  numberOf : Array (Option ℕ)
  /-- The identifiers that have come up, by number. -/
  origin : List ℕ
  names : List String
  /-- The numbers of the communities of the vertices visited. -/
  projection : Array ℕ

namespace Numbering

variable {n v : ℕ} {names : List String} {a : Assignment}

/-- Nothing has come up yet. -/
def blank (n : ℕ) : Numbering := ⟨.replicate n none, [], [], #[]⟩

/-- Looks up the community of a vertex, which gets the next number if it has none. -/
def visit (names : List String) (a : Assignment) (s : Numbering) (v : ℕ) : Numbering :=
  match s.numberOf.getD (a.labelOf v) none with
  | some x => { s with projection := s.projection.push x }
  | none =>
    { numberOf := s.numberOf.setIfInBounds (a.labelOf v) (some s.origin.length)
      origin := s.origin ++ [a.labelOf v]
      names := s.names ++ [names.getD (a.labelOf v) ""]
      projection := s.projection.push s.origin.length }

/-- What has come up when some vertices have been visited. -/
def after (n : ℕ) (names : List String) (a : Assignment) (visited : List ℕ) : Numbering :=
  let roster := Roster.ofList (visited.map a.labelOf)
  { numberOf := tabulated n roster.indexOf?
    origin := roster.items
    names := roster.items.map fun c => names.getD c ""
    projection := (visited.map fun v => (roster.indexOf? (a.labelOf v)).getD 0).toArray }

theorem blank_eq_after (n : ℕ) (names : List String) (a : Assignment) :
    blank n = after n names a [] := by
  rw [blank, replicate_eq_tabulated]
  rfl

/-- **A visit makes of what has come up what has come up with one more vertex.** -/
theorem visit_after (hv : a.labelOf v < n) (visited : List ℕ) :
    (after n names a visited).visit names a v = after n names a (visited ++ [v]) := by
  have hcell : (after n names a visited).numberOf.getD (a.labelOf v) none
      = (Roster.ofList (visited.map a.labelOf)).indexOf? (a.labelOf v) := getD_tabulated _ _ hv
  have hroster : Roster.ofList (visited.map a.labelOf ++ [a.labelOf v])
      = (Roster.ofList (visited.map a.labelOf)).mention (a.labelOf v) :=
    Roster.ofList_append_singleton _ _
  unfold visit
  rw [hcell]
  simp only [after, List.map_append, List.map_singleton]
  cases hfound : (Roster.ofList (visited.map a.labelOf)).indexOf? (a.labelOf v) with
  | some x =>
    have hmem := List.mem_of_getElem? (Roster.indexOf?_eq_some_iff.mp hfound)
    rw [hroster, Roster.mention_of_mem hmem, hfound, Option.getD_some]
    simp only [List.push_toArray]
  | none =>
    have hnew := Roster.notMem_of_indexOf?_eq_none hfound
    -- The vertices visited before are in other communities, which keep their numbers.
    have hold : visited.map (fun u => (((Roster.ofList (visited.map a.labelOf)).mention
        (a.labelOf v)).indexOf? (a.labelOf u)).getD 0)
        = visited.map fun u => ((Roster.ofList (visited.map a.labelOf)).indexOf?
          (a.labelOf u)).getD 0 := by
      refine List.map_congr_left fun u hu => ?_
      have hne : a.labelOf v ≠ a.labelOf u := fun heq =>
        hnew (heq ▸ Roster.mem_ofList.mpr (List.mem_map_of_mem hu))
      rw [Roster.indexOf?_mention hnew, if_neg hne]
    have hindex := funext (Roster.indexOf?_mention hnew)
    rw [hroster, hold, Roster.items_mention, if_neg hnew, set_tabulated, ← hindex, List.map_append,
      List.map_singleton, Roster.indexOf?_mention hnew, if_pos rfl, Option.getD_some,
      List.push_toArray]

theorem foldl_visit {rest : List ℕ} (hrest : ∀ v ∈ rest, a.labelOf v < n) (visited : List ℕ) :
    rest.foldl (visit names a) (after n names a visited) = after n names a (visited ++ rest) := by
  induction rest generalizing visited with
  | nil => rw [List.append_nil, List.foldl_nil]
  | cons v rest ih =>
    rw [List.foldl_cons, visit_after (hrest v (by simp)),
      ih fun u hu => hrest u (List.mem_cons_of_mem v hu), List.append_assoc, List.singleton_append]

end Numbering

/-! ## Merging on tables -/

namespace Tables

/-- The number of vertices. -/
def size (t : Tables) : ℕ := t.names.length

/-- The communities of an assignment, numbered in the order of their first vertices. -/
def numbering (t : Tables) (a : Assignment) : Numbering :=
  (List.range t.size).foldl (Numbering.visit t.names a) (.blank t.size)

/-- The tables of the communities of an assignment that fits. -/
def merge (t : Tables) (a : Assignment) : Tables :=
  let projection := (t.numbering a).projection
  ofParts (t.numbering a).names (accumulate (t.arcs.map fun e =>
    ⟨projection.getD e.source 0, projection.getD e.target 0, e.weight⟩))

/-- The tables of the communities of an assignment, which has to label exactly the vertices. -/
def merge? (t : Tables) (a : Assignment) : Except Error Tables :=
  if a.size ≠ t.size then
    .error (.incompleteAssignment (t.size - a.size) (a.size - t.size) [])
  else .ok (t.merge a)

variable {t : Tables} {g : CallGraph} {a : Assignment}

theorem Tabulates.size_eq (h : t.Tabulates g) : t.size = g.vertexCount := by
  rw [size, h.names_eq, List.length_map, vertexList, List.length_range]

/-- **Merging tables is merging the graph.** -/
theorem Tabulates.merge (h : t.Tabulates g) (ha : a.Valid g.vertexCount) :
    (t.merge a).Tabulates (g.coarsen a).graph := by
  have hnumbering : t.numbering a = .after g.vertexCount t.names a g.vertexList := by
    rw [numbering, h.size_eq, Numbering.blank_eq_after _ t.names a, Numbering.foldl_visit
      fun v hv => ha.labelOf_lt (List.mem_range.mp hv), List.nil_append]
    rfl
  have hnames : (t.numbering a).names = (g.coarsen a).graph.vertices.items := by
    rw [hnumbering, items_coarsen ha, h.names_eq, map_name_vertexList]
    rfl
  have hprojection : (t.numbering a).projection = (g.coarsen a).projection := by
    rw [hnumbering]
    rfl
  rw [Tables.merge, hnames, hprojection, h.arcs_eq]
  exact weights_coarsen ha ▸ tabulates_ofParts (g.coarsen a).graph

end Tables

/-! ## Makings -/

/-- The tables of the calls that a builder keeps. -/
def Builder.fill (b : Builder) : Except Error Tables :=
  if maxTotalWeight < sumOver Arc.weight b.kept then .error (.weightOverflow maxTotalWeight)
  else .ok (.ofParts b.vertices.items (accumulate b.kept))

/-- How a graph is made. -/
inductive Making where
  /-- A builder takes some steps and builds. -/
  | built (isClosed : Bool) (granularity : Granularity) (steps : List Step)
  /-- A graph is merged along an assignment that labels vertices with vertices. -/
  | merged (earlier : Making) (a : Assignment) (ha : a.Valid a.size)

namespace Making

/-- A builder takes observations, whose ends are the vertices. -/
def observed (observations : List Observation) : Making :=
  .built false .perMethod (observations.map fun o => .tell (.observe o))

/-- The graph that is made. -/
def graph : Making → Except Error CallGraph
  | built isClosed granularity steps => ((Builder.empty isClosed granularity).run steps).build
  | merged earlier a _ => do return (← (← earlier.graph).coarsen? a).graph

/-- The tables that are made, without the graph. -/
def tables : Making → Except Error Tables
  | built isClosed granularity steps => ((Builder.empty isClosed granularity).run steps).fill
  | merged earlier a _ => do (← earlier.tables).merge? a

/-- The outcome on tables is that on graphs: the same error, or the tables of the graph. -/
def Agree : Except Error CallGraph → Except Error Tables → Prop
  | .ok g, .ok t => t.Tabulates g
  | .error e, .error e' => e = e'
  | _, _ => False

theorem agree_ok {g : CallGraph} {made : Except Error Tables} :
    Agree (.ok g) made ↔ ∃ t, made = .ok t ∧ t.Tabulates g := by
  cases made <;> simp [Agree]

theorem agree_error {e : Error} {made : Except Error Tables} :
    Agree (.error e) made ↔ made = .error e := by
  cases made <;> simp [Agree, eq_comm]

theorem agree_build {b : Builder} {t : Telling} (h : b.Heard t) : Agree b.build b.fill := by
  rw [Builder.build, Builder.fill]
  split
  · exact rfl
  · have hweights := Builder.weights_graph fun e he => h.pos_of_mem_kept he
    exact hweights ▸ Tables.tabulates_ofParts b.graph

theorem agree_merge {g : CallGraph} {t : Tables} (h : t.Tabulates g) {a : Assignment}
    (ha : a.Valid a.size) : Agree ((g.coarsen? a).map Coarsening.graph) (t.merge? a) := by
  rw [coarsen?, Tables.merge?, h.size_eq]
  by_cases hs : a.size = g.vertexCount
  · rw [if_neg (not_not.mpr hs), if_neg (not_not.mpr hs)]
    exact h.merge (hs ▸ ha)
  · rw [if_pos hs, if_pos hs]
    exact rfl

/-- **Graphs and tables are made alike**, step by step. -/
theorem agree : ∀ m : Making, Agree m.graph m.tables
  | built isClosed granularity steps => agree_build (Builder.heard_run isClosed granularity steps)
  | merged earlier a ha => by
    have h := agree earlier
    rw [graph, tables]
    cases hg : earlier.graph with
    | error e =>
      rw [hg] at h
      rw [agree_error.mp h]
      exact rfl
    | ok g =>
      rw [hg] at h
      obtain ⟨t, ht, htables⟩ := agree_ok.mp h
      rw [ht]
      exact agree_merge htables ha

theorem ofObservations_eq (observations : List Observation) :
    CallGraph.ofObservations observations = (observed observations).graph := by
  rw [CallGraph.ofObservations, observed, graph, Builder.run, List.foldl_map]
  rfl

end Making

/-- **Every graph that is ever made is well formed.**  Let a graph come out of a builder, open or closed,
after any steps, or be merged from a graph that was made, along an assignment that labels vertices with
vertices.  Then its parts agree, as `CallGraph.WellFormed` says.  And tables that are made in the same way,
by entering arcs into all of them at once, are the functions of that graph.  What cannot be made as a graph
cannot be made as tables, for the same reason.  Graphs of observations are among the graphs made. -/
theorem graphs_well_formed :
    (∀ (m : Making) (g : CallGraph), m.graph = .ok g →
      g.WellFormed ∧ ∃ t, m.tables = .ok t ∧ t.Tabulates g)
    ∧ (∀ (m : Making) (e : Error), m.graph = .error e → m.tables = .error e)
    ∧ ∀ observations : List Observation,
      CallGraph.ofObservations observations = (Making.observed observations).graph := by
  refine ⟨fun m g hg => ⟨g.wellFormed, ?_⟩, fun m e he => ?_, Making.ofObservations_eq⟩
  · exact Making.agree_ok.mp (hg ▸ m.agree)
  · exact Making.agree_error.mp (he ▸ m.agree)

/-- Calls among three methods, one of which calls itself. -/
def threeMethods : Making :=
  .observed [⟨"Main.run", "Db.get", 2⟩, ⟨"Db.get", "Main.run", 1⟩, ⟨"Main.run", "Main.run", 3⟩,
    ⟨"Log.put", "Db.get", 4⟩]

/-- They are merged into two communities that are each named after a member of the other. -/
def swappedNames : Making := .merged threeMethods ⟨#[2, 2, 0]⟩ ⟨rfl, by decide⟩

/-- The calls inside a community become a loop that counts twice.  A label for one vertex of three is
refused. -/
theorem graphs_well_formed_swapped :
    (∃ g, swappedNames.graph = .ok g
      ∧ g.vertexList.map g.name = ["Log.put", "Main.run"]
      ∧ g.vertexList.map g.loopWeight = [6, 0]
      ∧ g.vertexList.map g.degree = [16, 4]
      ∧ g.WellFormed ∧ ∃ t, swappedNames.tables = .ok t ∧ t.Tabulates g)
    ∧ (Making.merged threeMethods ⟨#[0]⟩ ⟨rfl, by decide⟩).tables
      = .error (.incompleteAssignment 2 0 []) := by
  have hvalues : (swappedNames.graph.toOption.map fun g => (g.vertexList.map g.name,
      g.vertexList.map g.loopWeight, g.vertexList.map g.degree))
      = some (["Log.put", "Main.run"], [6, 0], [16, 4]) := by decide +kernel
  obtain ⟨hmade, hrefused, -⟩ := graphs_well_formed
  refine ⟨?_, hrefused _ _ (by rfl)⟩
  cases hg : swappedNames.graph with
  | error e =>
    rw [hg] at hvalues
    cases hvalues
  | ok g =>
    rw [hg] at hvalues
    simp only [Except.toOption, Option.map_some, Option.some.injEq, Prod.mk.injEq] at hvalues
    exact ⟨g, rfl, hvalues.1, hvalues.2.1, hvalues.2.2, hmade _ g hg⟩

end CallCommunities
