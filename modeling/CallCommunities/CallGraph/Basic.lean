import CallCommunities.Roster
import CallCommunities.SortedMap
import CallCommunities.SumOver

/-!
# CallGraph/Basic — weighted directed call graphs

A call graph has numbered, distinctly named vertices and, for some ordered pairs of them, a positive
number of calls.  The roster of names and the sorted map of weights are all there is: **two graphs with
the same names and the same weights are equal**, and degrees, neighbours and ranks are computed from
those two.

Seen without directions, `degree v` adds what leaves `v` and what enters it, so a call from `v` to
itself counts twice and the degrees of all vertices add up to twice the total weight.
-/

namespace CallCommunities

open KeyOrder

/-- Calls along one ordered pair of vertices. -/
structure Arc where
  source : Nat
  target : Nat
  weight : Nat
deriving DecidableEq

/-- Whether an arc joins two of the first `n` vertices and carries a call. -/
def Arc.Fits (n : Nat) (a : Arc) : Prop := a.source < n ∧ a.target < n ∧ 0 < a.weight

instance (n : Nat) (a : Arc) : Decidable (a.Fits n) :=
  inferInstanceAs (Decidable (_ ∧ _ ∧ _))

/-- A weighted directed graph with named vertices. -/
structure CallGraph where
  vertices : Roster String
  /-- The number of calls for each ordered pair that has any. -/
  weights : SortedMap (Nat × Nat) Nat
  fits : ∀ e ∈ weights.entries, Arc.Fits vertices.size ⟨e.1.1, e.1.2, e.2⟩

namespace CallGraph

/-- Adds up arcs per ordered pair of vertices. -/
def accumulate (arcs : List Arc) : SortedMap (Nat × Nat) Nat :=
  arcs.foldl (fun weights a => weights.add (a.source, a.target) a.weight) SortedMap.empty

theorem fits_add {n : Nat} {m : SortedMap (Nat × Nat) Nat} {a : Arc} (ha : a.Fits n)
    (hm : ∀ e ∈ m.entries, Arc.Fits n ⟨e.1.1, e.1.2, e.2⟩) :
    ∀ e ∈ (m.add (a.source, a.target) a.weight).entries, Arc.Fits n ⟨e.1.1, e.1.2, e.2⟩ := by
  intro e he
  rcases SortedMap.mem_place he with he | ⟨hk, hx⟩
  · exact hm e he
  · refine ⟨hk ▸ ha.1, hk ▸ ha.2.1, ?_⟩
    have := ha.2.2
    rcases hx with hx | ⟨x, _, hx⟩ <;> simp [hx] <;> omega

theorem fits_foldl_add {n : Nat} (arcs : List Arc) (m : SortedMap (Nat × Nat) Nat)
    (ha : ∀ a ∈ arcs, a.Fits n) (hm : ∀ e ∈ m.entries, Arc.Fits n ⟨e.1.1, e.1.2, e.2⟩) :
    ∀ e ∈ (arcs.foldl (fun weights a => weights.add (a.source, a.target) a.weight) m).entries,
      Arc.Fits n ⟨e.1.1, e.1.2, e.2⟩ := by
  induction arcs generalizing m with
  | nil => exact hm
  | cons a rest ih =>
    exact ih _ (fun b hb => ha b (List.mem_cons_of_mem _ hb)) (fits_add (ha a (by simp)) hm)

/-- The graph on the given vertices whose weights add up the arcs between them; an arc that does not
fit is left out. -/
def ofArcs (vertices : Roster String) (arcs : List Arc) : CallGraph where
  vertices
  weights := accumulate (arcs.filter fun a => a.Fits vertices.size)
  fits := fits_foldl_add _ _ (fun a ha => by simpa using (List.mem_filter.mp ha).2)
    (by simp [SortedMap.empty])

@[ext] theorem ext_names_weights {g h : CallGraph} (hv : g.vertices = h.vertices)
    (hw : g.weights = h.weights) : g = h := by
  cases g; cases h; cases hv; cases hw; rfl

/-- The number of vertices. -/
def vertexCount (g : CallGraph) : Nat := g.vertices.size

/-- The vertices in index order. -/
def vertexList (g : CallGraph) : List Nat := List.range g.vertexCount

/-- The name of a vertex; past the last vertex it is empty. -/
def name (g : CallGraph) (v : Nat) : String := g.vertices.items.getD v ""

/-- The vertex with a name. -/
def vertexOf? (g : CallGraph) (s : String) : Option Nat := g.vertices.indexOf? s

/-- Whether some vertex has the name. -/
def hasVertex (g : CallGraph) (s : String) : Bool := g.vertices.contains s

/-- Whether the graph has no vertices. -/
def isEmpty (g : CallGraph) : Bool := g.vertexCount == 0

/-- Every arc, by source and then by target. -/
def arcs (g : CallGraph) : List Arc := g.weights.entries.map fun e => ⟨e.1.1, e.1.2, e.2⟩

/-- The number of ordered pairs with a call, loops included. -/
def arcCount (g : CallGraph) : Nat := g.weights.size

/-- The number of calls from `s` to `t`. -/
def weight (g : CallGraph) (s t : Nat) : Nat := (g.weights.get? (s, t)).getD 0

/-- The number of all calls. -/
def totalWeight (g : CallGraph) : Nat := sumOver Arc.weight g.arcs

/-- What `v` calls and how often, by target. -/
def outgoing (g : CallGraph) (v : Nat) : List (Nat × Nat) :=
  g.weights.entries.filterMap fun e => if e.1.1 = v then some (e.1.2, e.2) else none

/-- What calls `v` and how often, by source. -/
def incoming (g : CallGraph) (v : Nat) : List (Nat × Nat) :=
  g.weights.entries.filterMap fun e => if e.1.2 = v then some (e.1.1, e.2) else none

/-- The number of calls from `v` to itself. -/
def loopWeight (g : CallGraph) (v : Nat) : Nat := g.weight v v

/-- The number of call ends at `v`: a call from `v` to itself has both. -/
def degree (g : CallGraph) (v : Nat) : Nat :=
  sumOver (·.2) (g.outgoing v) + sumOver (·.2) (g.incoming v)

/-- The number recorded for `u` in a list of vertices and numbers, zero without a record. -/
def recorded (rows : List (Nat × Nat)) (u : Nat) : Nat := (rows.lookup u).getD 0

/-- The other vertices that share calls with `v`, in index order, each with the calls of both
directions. -/
def incident (g : CallGraph) (v : Nat) : List (Nat × Nat) :=
  let calls := g.outgoing v
  let callers := g.incoming v
  g.vertexList.filterMap fun u =>
    let both := recorded calls u + recorded callers u
    if u ≠ v ∧ 0 < both then some (u, both) else none

/-- The position of a vertex when all names are sorted. -/
def rank (g : CallGraph) (v : Nat) : Nat :=
  let own := g.name v
  g.vertices.items.countP fun s => before s own

end CallGraph

end CallCommunities
