import CallCommunities.CallGraph.LinkView
import CallCommunities.Error

/-!
# Partition/Assignment — communities as a label for each vertex

An assignment labels every vertex of a graph with a community identifier, which is itself a vertex of
that graph.  The identifier need not be a member of its community: vertices move, and what they leave
keeps their name.  `canonicalize` relabels every community by its lowest-named member.

A named assignment, vertex name to identifier name, is accepted by `ofNames` exactly when its keys are
the vertices and its values are vertices.
-/

namespace CallCommunities

/-- A community identifier for each vertex. -/
structure Assignment where
  labels : Array Nat
deriving DecidableEq

namespace Assignment

/-- The number of vertices labelled. -/
def size (a : Assignment) : Nat := a.labels.size

/-- The community of a vertex; a vertex without a label is a community of its own. -/
def labelOf (a : Assignment) (v : Nat) : Nat := a.labels.getD v v

/-- What the library promises of an assignment for a graph with `n` vertices: one label for each
vertex, and every label a vertex. -/
def Valid (n : Nat) (a : Assignment) : Prop := a.size = n ∧ ∀ c ∈ a.labels, c < n

/-- Whether two assignments put the same vertices together, whatever their labels. -/
def SameGroups (a b : Assignment) : Prop :=
  a.size = b.size ∧ ∀ v w, v < a.size → w < a.size →
    (a.labelOf v = a.labelOf w ↔ b.labelOf v = b.labelOf w)

/-- The assignment of a label to each of the first `n` vertices. -/
def tabulate (n : Nat) (f : Nat → Nat) : Assignment := ⟨((List.range n).map f).toArray⟩

/-- Every vertex in a community of its own. -/
def singletons (n : Nat) : Assignment := tabulate n id

/-- Moves a vertex to another community. -/
def relabel (a : Assignment) (v c : Nat) : Assignment := ⟨a.labels.setIfInBounds v c⟩

/-- The vertices labelled `c`, in index order. -/
def members (a : Assignment) (c : Nat) : List Nat :=
  (List.range a.size).filter fun v => a.labelOf v = c

/-- The identifiers in use, in increasing order. -/
def identifiers (a : Assignment) : List Nat :=
  (List.range a.size).filter fun c => a.labels.contains c

/-- The number of communities. -/
def communityCount (a : Assignment) : Nat := a.identifiers.length

/-- Every community with its members, by identifier. -/
def communities (a : Assignment) : List (Nat × List Nat) :=
  a.identifiers.map fun c => (c, a.members c)

/-- The degrees of the members of `c` together. -/
def degreeSum (a : Assignment) (degree : Nat → Nat) (c : Nat) : Nat :=
  sumOver degree (a.members c)

/-- The degrees of the members of every community together, indexed by identifier. -/
def degreeSums (a : Assignment) (degree : Nat → Nat) : List Nat :=
  (List.range a.size).map (a.degreeSum degree)

/-- The lowest-named member of the community `c`. -/
def representative (view : LinkView) (a : Assignment) (c : Nat) : Nat :=
  match a.members c with
  | [] => c
  | v :: rest => rest.foldl view.lowest v

/-- The same communities, each labelled by its lowest-named member. -/
def canonicalize (view : LinkView) (a : Assignment) : Assignment :=
  ⟨a.labels.map (a.representative view)⟩

/-- How many names an `incompleteAssignment` shows. -/
def sampleSize : Nat := 5

/-- An assignment from labels in vertex order, one for each vertex and each a vertex. -/
def ofLabels (g : CallGraph) (labels : List Nat) : Except Error Assignment :=
  if labels.length ≠ g.vertexCount then
    .error (.incompleteAssignment (g.vertexCount - labels.length) (labels.length - g.vertexCount) [])
  else
    match labels.find? fun c => decide (g.vertexCount ≤ c) with
    | some c => .error (.unknownCommunity s!"#{c}")
    | none => .ok ⟨labels.toArray⟩

/-- An assignment from a map of vertex names to identifier names. -/
def ofNames (g : CallGraph) (names : SortedMap String String) : Except Error Assignment :=
  let missing := g.vertices.items.filter fun s => !names.contains s
  let stale := names.keys.filter fun s => !g.hasVertex s
  if !missing.isEmpty || !stale.isEmpty then
    .error (.incompleteAssignment missing.length stale.length ((missing ++ stale).take sampleSize))
  else do
    let labels ← g.vertices.items.mapM fun s =>
      let identifier := (names.get? s).getD ""
      match g.vertexOf? identifier with
      | some c => .ok c
      | none => .error (.unknownCommunity identifier)
    return ⟨labels.toArray⟩

/-- The map of vertex names to identifier names. -/
def toNames (g : CallGraph) (a : Assignment) : SortedMap String String :=
  .ofList (g.vertexList.map fun v => (g.name v, g.name (a.labelOf v)))

end Assignment

end CallCommunities
