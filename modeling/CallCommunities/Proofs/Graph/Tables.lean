import CallCommunities.Proofs.Graph.Filling

/-!
# Proofs/Graph/Tables — a graph kept as tables

Two passes make the tables of a graph: one over the sorted names, which writes the place of every vertex
into its cell (`writePlaces`), and the one over the arcs (`Filling.enter`).  **Every table is the function
of the graph that it stands for** (`Tables.tabulates_ofParts`), so the tables agree with each other as the
parts of a graph do, and the arcs can be read off them again (`Tables.Tabulates.arcs_eq`).
-/

namespace CallCommunities

open CallGraph KeyOrder

/-! ## The pass over the names -/

/-- Writes into the cell of every listed vertex where it stands in the list, counting from `k`. -/
def writePlaces : List ℕ → ℕ → Array ℕ → Array ℕ
  | [], _, places => places
  | v :: rest, k, places => writePlaces rest (k + 1) (places.setIfInBounds v k)

theorem writePlaces_tabulated {n : ℕ} {l : List ℕ} (hl : l.Nodup) (k : ℕ) (f : ℕ → ℕ) :
    writePlaces l k (tabulated n f) = tabulated n fun v => if v ∈ l then k + l.idxOf v else f v := by
  induction l generalizing k f with
  | nil => simp [writePlaces]
  | cons x rest ih =>
    obtain ⟨hx, hrest⟩ := List.nodup_cons.mp hl
    rw [writePlaces, set_tabulated, ih hrest]
    refine tabulated_congr fun v _ => ?_
    by_cases hv : x = v
    · subst hv
      simp [hx]
    · simp only [List.mem_cons, Ne.symm hv, false_or, if_neg hv, List.idxOf_cons_ne rest hv]
      split <;> omega

/-- In a list sorted by a strict order, a member stands behind as many as come before it. -/
theorem countP_eq_idxOf {r : ℕ → ℕ → Bool} (hr : ∀ u v, r u v = true → r v u = false)
    {l : List ℕ} (hl : l.Pairwise fun u v => r u v = true) {v : ℕ} (hv : v ∈ l) :
    l.countP (r · v) = l.idxOf v := by
  have hirrefl : r v v = false := by
    cases h : r v v with
    | false => rfl
    | true => exact h.symm.trans (hr v v h)
  induction l with
  | nil => cases hv
  | cons x rest ih =>
    obtain ⟨hx, hrest⟩ := List.pairwise_cons.mp hl
    by_cases hvx : x = v
    · subst hvx
      have hnone : rest.countP (r · x) = 0 :=
        List.countP_eq_zero.mpr fun y hy => by simp [hr x y (hx y hy)]
      simp [hirrefl, hnone]
    · have hmem : v ∈ rest := (List.mem_cons.mp hv).resolve_left (Ne.symm hvx)
      rw [List.countP_cons, if_pos (hx v hmem), ih hrest hmem, List.idxOf_cons_ne rest hvx]

/-- The vertices in the order of their names. -/
def nameOrder (names : List String) : List ℕ :=
  (List.range names.length).mergeSort fun u v => !before (names.getD v "") (names.getD u "")

/-- Where every vertex stands in the order of the names. -/
def ranksOf (names : List String) : Array ℕ :=
  writePlaces (nameOrder names) 0 (.replicate names.length 0)

theorem perm_nameOrder (g : CallGraph) : (nameOrder g.vertices.items).Perm g.vertexList :=
  List.mergeSort_perm _ _

/-- **The names are in order.** -/
theorem pairwise_nameOrder (g : CallGraph) : (nameOrder g.vertices.items).Pairwise fun u v =>
    before (g.name u) (g.name v) = true := by
  have hsorted : (nameOrder g.vertices.items).Pairwise fun u v =>
      (!before (g.name v) (g.name u)) = true := by
    refine List.pairwise_mergeSort (fun u v w huv hvw => ?trans) (fun u v => ?total) _
    case trans =>
      simp only [Bool.not_eq_true'] at huv hvw ⊢
      refine Bool.eq_false_iff.mpr fun hwu => ?_
      cases h : before (g.name u) (g.name v) with
      | true => exact absurd (before_trans hwu h) (Bool.eq_false_iff.mp hvw)
      | false =>
        have heq : g.name u = g.name v := eq_of_not_before h huv
        exact absurd (heq ▸ hwu) (Bool.eq_false_iff.mp hvw)
    case total =>
      cases h : before (g.name v) (g.name u) with
      | false => rfl
      | true => simp [before_asymm h]
  have hnodup : (nameOrder g.vertices.items).Nodup :=
    (perm_nameOrder g).nodup_iff.mpr List.nodup_range
  refine (hsorted.and hnodup).imp_of_mem fun {u v} hu hv huv => ?_
  have hlt : ∀ w ∈ nameOrder g.vertices.items, w < g.vertexCount := fun w hw =>
    List.mem_range.mp ((perm_nameOrder g).subset hw)
  by_contra h
  exact huv.2 (name_injOn (hlt u hu) (hlt v hv)
    (eq_of_not_before (Bool.eq_false_iff.mpr h) (by simpa using huv.1)))

/-- **What is written into the cells are the ranks.** -/
theorem ranksOf_eq (g : CallGraph) : ranksOf g.vertices.items = tabulated g.vertexCount g.rank := by
  have hperm := perm_nameOrder g
  have hnodup : (nameOrder g.vertices.items).Nodup := hperm.nodup_iff.mpr List.nodup_range
  rw [ranksOf, replicate_eq_tabulated, writePlaces_tabulated hnodup]
  refine tabulated_congr fun v hv => ?_
  have hmem : v ∈ nameOrder g.vertices.items := hperm.mem_iff.mpr (List.mem_range.mpr hv)
  have hcount := countP_eq_idxOf (fun x y => before_asymm) (pairwise_nameOrder g) hmem
  rw [if_pos hmem, Nat.zero_add, ← hcount, hperm.countP_eq, rank, ← map_name_vertexList,
    List.countP_map]
  rfl

/-! ## All tables -/

/-- A graph as tables. -/
structure Tables where
  names : List String
  /-- The vertex of each name. -/
  index : SortedMap String ℕ
  ranks : Array ℕ
  outgoing : Array (List (ℕ × ℕ))
  incident : Array (List (ℕ × ℕ))
  loops : Array ℕ
  degrees : Array ℕ
  total : ℕ

namespace Tables

/-- The names and what the arcs have been entered into, with the tables made from the names. -/
def ofFilling (names : List String) (filling : Filling) : Tables where
  names
  index := .ofList names.zipIdx
  ranks := ranksOf names
  outgoing := filling.outgoing
  incident := filling.links.map SortedMap.entries
  loops := filling.loops
  degrees := filling.degrees
  total := filling.total

/-- The tables of the graph with the given names and weights. -/
def ofParts (names : List String) (weights : SortedMap (ℕ × ℕ) ℕ) : Tables :=
  ofFilling names ((weights.entries.map fun e => ⟨e.1.1, e.1.2, e.2⟩).foldl Filling.enter
    (.blank names.length))

/-- Every table is the function of the graph that it stands for. -/
structure Tabulates (t : Tables) (g : CallGraph) : Prop where
  names_eq : t.names = g.vertexList.map g.name
  get?_index : ∀ s, t.index.get? s = g.vertexOf? s
  ranks_eq : t.ranks = tabulated g.vertexCount g.rank
  outgoing_eq : t.outgoing = tabulated g.vertexCount g.outgoing
  incident_eq : t.incident = tabulated g.vertexCount g.incident
  loops_eq : t.loops = tabulated g.vertexCount g.loopWeight
  degrees_eq : t.degrees = tabulated g.vertexCount g.degree
  total_eq : t.total = g.totalWeight

theorem get?_ofList_zipIdx (t : Roster String) (s : String) :
    (SortedMap.ofList t.items.zipIdx).get? s = t.indexOf? s := by
  have hnodup : (t.items.zipIdx.map (·.1)).Nodup := (List.zipIdx_map_fst 0 t.items).symm ▸ t.nodup
  cases hs : t.indexOf? s with
  | some v =>
    exact SortedMap.get?_foldl_insert_of_mem hnodup
      (List.mk_mem_zipIdx_iff_getElem?.mpr (Roster.indexOf?_eq_some_iff.mp hs))
  | none =>
    refine SortedMap.get?_foldl_insert_of_notMem ?_
    rw [List.zipIdx_map_fst]
    exact Roster.notMem_of_indexOf?_eq_none hs

/-- **The tables of a graph hold its functions.** -/
theorem tabulates_ofParts (g : CallGraph) : (ofParts g.vertices.items g.weights).Tabulates g := by
  have hfilling : g.arcs.foldl Filling.enter (.blank g.vertexCount)
      = .after g.vertexCount g.arcs := by
    rw [Filling.blank_eq_after, Filling.foldl_enter, List.nil_append]
  have hparts : ofParts g.vertices.items g.weights
      = ofFilling g.vertices.items (.after g.vertexCount g.arcs) :=
    congrArg (ofFilling g.vertices.items) hfilling
  rw [hparts]
  refine ⟨g.map_name_vertexList.symm, get?_ofList_zipIdx g.vertices, ranksOf_eq g, ?outgoing,
    ?incident, ?loops, ?degrees, rfl⟩
  case outgoing =>
    refine tabulated_congr fun v _ => ?_
    rw [arcs, List.filterMap_map]
    rfl
  case incident =>
    refine (map_tabulated _ _ _).trans (tabulated_congr fun v _ => ?_)
    exact Filling.entries_linksOf g v
  case loops =>
    exact tabulated_congr fun v _ => sumOver_between g v v
  case degrees =>
    refine tabulated_congr fun v _ => ?_
    rw [sumOver_source, sumOver_target]
    rfl

/-- The arcs that the tables list, vertex by vertex. -/
def arcs (t : Tables) : List Arc :=
  t.outgoing.toList.zipIdx.flatMap fun row => row.1.map fun p => ⟨row.2, p.1, p.2⟩

theorem Tabulates.arcs_eq {t : Tables} {g : CallGraph} (h : t.Tabulates g) : t.arcs = g.arcs := by
  rw [arcs, h.outgoing_eq, zipIdx_tabulated, List.flatMap_map, arcs_eq_flatMap]
  rfl

end Tables

end CallCommunities
