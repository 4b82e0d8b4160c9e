import CallCommunities.Proofs.Partition.Parts

/-!
# Proofs/Partition/Search — the connected parts, found by searching

The parts need no rounds of exchange: a search with a queue finds each of them in one go.  One array serves
as marks and as result.  A vertex without a label starts a search through its community, and everything
found is labelled with it for the time being; when the queue is empty, **what has been found is the part of
the first vertex** (`mem_explored_run`), and its labels are overwritten with the lowest-named vertex in it.
A search neither meets what earlier ones have labelled nor leaves anything of its part to later ones
(`Labelled.labelPart`), so together they label what the rounds label (`search_eq_refine`).
-/

namespace CallCommunities

open Assignment CallGraph

/-- A search through the community of one vertex. -/
structure Search where
  /-- The label of each vertex, none while it has not been found. -/
  labels : Array (Option ℕ)
  /-- What has been found and not been explored yet, in the order in which it was found. -/
  queue : List ℕ
  /-- What has been explored. -/
  explored : List ℕ

namespace Search

variable {g : CallGraph} {view : LinkView} {a : Assignment} {before : Array (Option ℕ)} {s : Search}
  {start u v w : ℕ} {rest : List ℕ}

/-! ## The search -/

/-- Finds `u`, if it is in the community of `start` and has not been found before. -/
def find (a : Assignment) (start : ℕ) (s : Search) (u : ℕ) : Search :=
  if s.labels[u]? = some none ∧ a.labelOf u = a.labelOf start then
    { s with labels := s.labels.setIfInBounds u (some start), queue := s.queue ++ [u] }
  else s

/-- Explores `v`: takes it off the queue, of which `rest` is left, and finds its neighbours. -/
def explore (view : LinkView) (a : Assignment) (start : ℕ) (s : Search) (v : ℕ) (rest : List ℕ) :
    Search :=
  ((view.linksOf v).map (·.1)).foldl (find a start)
    { s with queue := rest, explored := s.explored ++ [v] }

/-- How many vertices are to be found or to be explored yet. -/
def pending (s : Search) : ℕ := s.labels.count none + s.queue.length

theorem pending_find (a : Assignment) (start : ℕ) (s : Search) (u : ℕ) :
    (s.find a start u).pending = s.pending := by
  unfold find
  split
  · rename_i h
    obtain ⟨hlt, hnone⟩ := Array.getElem?_eq_some_iff.mp h.1
    have hpos : 0 < s.labels.count none := Array.count_pos_iff.mpr (hnone ▸ Array.getElem_mem hlt)
    simp only [pending, Array.setIfInBounds_def, dif_pos hlt, Array.count_set hlt, hnone,
      List.length_append, List.length_singleton]
    simp
    omega
  · rfl

theorem pending_foldl_find (a : Assignment) (start : ℕ) : ∀ (l : List ℕ) (s : Search),
    (l.foldl (find a start) s).pending = s.pending
  | [], _ => rfl
  | u :: l, s => by rw [List.foldl_cons, pending_foldl_find a start l, pending_find]

theorem pending_explore_lt (view : LinkView) (a : Assignment) (start : ℕ) (hq : s.queue = v :: rest) :
    (s.explore view a start v rest).pending < s.pending := by
  rw [explore, pending_foldl_find, pending, pending, hq, List.length_cons]
  exact Nat.lt_succ_self _

/-- Explores until the queue is empty. -/
def run (view : LinkView) (a : Assignment) (start : ℕ) (s : Search) : Search :=
  match _ : s.queue with
  | [] => s
  | v :: rest => run view a start (s.explore view a start v rest)
termination_by s.pending
decreasing_by exact pending_explore_lt view a start ‹_›

/-- The search from `start` when the vertices have the given labels. -/
def begin (labels : Array (Option ℕ)) (start : ℕ) : Search :=
  ⟨labels.setIfInBounds start (some start), [start], []⟩

/-- Labels what is found from `start` with the lowest-named vertex found, unless `start` has a label. -/
def labelPart (view : LinkView) (a : Assignment) (labels : Array (Option ℕ)) (start : ℕ) :
    Array (Option ℕ) :=
  if (labels.getD start none).isSome then labels
  else
    let s := run view a start (begin labels start)
    let lowest := s.explored.foldl view.lowest start
    s.explored.foldl (fun labels v => labels.setIfInBounds v (some lowest)) s.labels

end Search

/-- The connected parts of the communities, by a search from every vertex that no search has found. -/
def Assignment.search (view : LinkView) (a : Assignment) : Assignment :=
  let labels := view.vertexList.foldl (Search.labelPart view a) (.replicate view.size none)
  .tabulate view.size fun v => (labels.getD v none).getD v

namespace Search

variable {g : CallGraph} {view : LinkView} {a : Assignment} {before : Array (Option ℕ)} {s : Search}
  {start u v w k : ℕ} {rest : List ℕ}

/-! ## What a search finds -/

/-- Whether `v` has been found. -/
def Found (s : Search) (v : ℕ) : Prop := v ∈ s.explored ∨ v ∈ s.queue

/-- What a search from `start` keeps that began when the labels were `before`: what has been found is
joined to `start` and labelled with it, and all else is as it was. -/
structure Underway (g : CallGraph) (a : Assignment) (before : Array (Option ℕ)) (start : ℕ)
    (s : Search) : Prop where
  size_labels : s.labels.size = before.size
  found_start : s.Found start
  joined : ∀ v, s.Found v → Joined g.linkView a start v
  labels_found : ∀ v, s.Found v → s.labels[v]? = some (some start)
  labels_other : ∀ v, ¬ s.Found v → s.labels[v]? = before[v]?

/-- Whether the neighbours of everything explored have been found, those in other communities apart. -/
def Closed (g : CallGraph) (a : Assignment) (s : Search) : Prop :=
  ∀ v ∈ s.explored, ∀ w, Touching g.linkView a v w → s.Found w

section Fresh

/- Nothing of the part of `start` has a label when the search begins. -/
variable (hfresh : ∀ v, Joined g.linkView a start v → before[v]? = some none)
include hfresh

theorem underway_begin : Underway g a before start (begin before start) where
  size_labels := Array.size_setIfInBounds
  found_start := .inr (List.mem_singleton_self start)
  joined v hv := by
    obtain rfl : v = start := by simpa [Found, begin] using hv
    exact .refl v
  labels_found v hv := by
    obtain rfl : v = start := by simpa [Found, begin] using hv
    obtain ⟨hlt, -⟩ := Array.getElem?_eq_some_iff.mp (hfresh v (.refl v))
    rw [begin, Array.getElem?_setIfInBounds_self, if_pos hlt]
  labels_other v hv := by
    have hne : start ≠ v := fun heq => hv (.inr (heq ▸ List.mem_singleton_self start))
    exact Array.getElem?_setIfInBounds_ne hne

/-- A neighbour is found when it is in the community. -/
theorem Underway.find (h : Underway g a before start s)
    (hu : a.labelOf u = a.labelOf start → Joined g.linkView a start u) :
    Underway g a before start (s.find a start u) ∧ (s.find a start u).explored = s.explored
      ∧ ∀ w, (s.find a start u).Found w ↔ s.Found w ∨ w = u ∧ a.labelOf w = a.labelOf start := by
  unfold Search.find
  split
  · rename_i hnew
    have hfound : ∀ w, Found { s with
        labels := s.labels.setIfInBounds u (some start), queue := s.queue ++ [u] } w
        ↔ s.Found w ∨ w = u := fun w => by simp [Found, or_assoc]
    obtain ⟨hlt, -⟩ := Array.getElem?_eq_some_iff.mp hnew.1
    refine ⟨⟨?_, (hfound start).mpr (.inl h.found_start), fun w hw => ?_, fun w hw => ?_,
      fun w hw => ?_⟩, rfl, fun w => (hfound w).trans (or_congr_right ?_)⟩
    · exact Array.size_setIfInBounds.trans h.size_labels
    · rcases (hfound w).mp hw with hw | rfl
      · exact h.joined w hw
      · exact hu hnew.2
    · rw [Array.getElem?_setIfInBounds]
      split
      · rfl
      · rename_i hne
        exact h.labels_found w (((hfound w).mp hw).resolve_right (Ne.symm hne))
    · obtain ⟨hw, hne⟩ := not_or.mp ((hfound w).not.mp hw)
      rw [Array.getElem?_setIfInBounds_ne (Ne.symm hne)]
      exact h.labels_other w hw
    · exact (and_iff_left_of_imp fun hwu => hwu ▸ hnew.2).symm
  · rename_i hold
    refine ⟨h, rfl, fun w => (or_iff_left_of_imp ?_).symm⟩
    rintro ⟨rfl, hlabel⟩
    by_contra hw
    exact hold ⟨(h.labels_other w hw).trans (hfresh w (hu hlabel)), hlabel⟩

theorem Underway.foldl_find : ∀ {l : List ℕ} {s : Search}, Underway g a before start s →
    (∀ u ∈ l, a.labelOf u = a.labelOf start → Joined g.linkView a start u) →
    Underway g a before start (l.foldl (Search.find a start) s)
      ∧ (l.foldl (Search.find a start) s).explored = s.explored
      ∧ ∀ w, (l.foldl (Search.find a start) s).Found w
        ↔ s.Found w ∨ w ∈ l ∧ a.labelOf w = a.labelOf start
  | [], s, h, _ => ⟨h, rfl, by simp⟩
  | u :: l, s, h, hl => by
    rw [List.forall_mem_cons] at hl
    obtain ⟨hfirst, hexplored, hfound⟩ := h.find hfresh hl.1
    obtain ⟨hlast, hexplored', hfound'⟩ := hfirst.foldl_find hl.2
    refine ⟨hlast, hexplored'.trans hexplored, fun w => (hfound' w).trans ?_⟩
    rw [hfound, or_assoc, List.mem_cons, or_and_right]

/-- **A step finds all neighbours in the community.** -/
theorem Underway.explore (h : Underway g a before start s) (hclosed : s.Closed g a)
    (hq : s.queue = v :: rest) : Underway g a before start (s.explore g.linkView a start v rest)
      ∧ (s.explore g.linkView a start v rest).Closed g a := by
  have hsame : ∀ w, Found { s with queue := rest, explored := s.explored ++ [v] } w ↔ s.Found w :=
    fun w => by simp [Found, hq, or_assoc]
  have hpopped : Underway g a before start
      { s with queue := rest, explored := s.explored ++ [v] } := by
    refine ⟨h.size_labels, (hsame start).mpr h.found_start, fun w hw => ?_, fun w hw => ?_,
      fun w hw => ?_⟩
    · exact h.joined w ((hsame w).mp hw)
    · exact h.labels_found w ((hsame w).mp hw)
    · exact h.labels_other w ((hsame w).not.mp hw)
  have hv : Joined g.linkView a start v := h.joined v (.inr (hq ▸ List.mem_cons_self))
  have htouch : ∀ w ∈ (g.linkView.linksOf v).map (·.1), a.labelOf w = a.labelOf start →
      Touching g.linkView a v w := by
    intro w hw hlabel
    obtain ⟨⟨_, x⟩, hx, rfl⟩ := List.mem_map.mp hw
    exact ⟨⟨x, hx⟩, hv.labelOf_eq.symm.trans hlabel.symm⟩
  obtain ⟨hstep, hexplored, hfound⟩ := hpopped.foldl_find hfresh fun w hw hlabel =>
    hv.step (htouch w hw hlabel)
  refine ⟨hstep, fun x hx w hxw => (hfound w).mpr ?_⟩
  rw [Search.explore, hexplored] at hx
  rcases List.mem_append.mp hx with hx | hx
  · exact .inl ((hsame w).mpr (hclosed x hx w hxw))
  · obtain rfl := List.mem_singleton.mp hx
    obtain ⟨⟨y, hy⟩, hlabel⟩ := hxw
    exact .inr ⟨List.mem_map.mpr ⟨_, hy, rfl⟩, hlabel.symm.trans hv.labelOf_eq.symm⟩

/-- What a run keeps, down to the empty queue. -/
theorem Underway.run (h : Underway g a before start s) (hclosed : s.Closed g a) :
    Underway g a before start (s.run g.linkView a start) ∧ (s.run g.linkView a start).Closed g a
      ∧ (s.run g.linkView a start).queue = [] := by
  fun_induction Search.run g.linkView a start s with
  | case1 s hq => exact ⟨h, hclosed, hq⟩
  | case2 s v rest hq ih =>
    obtain ⟨hstep, hclosed⟩ := h.explore hfresh hclosed hq
    exact ih hstep hclosed

/-- **When the queue is empty, the part of `start` has been found.** -/
theorem mem_explored_run :
    v ∈ ((begin before start).run g.linkView a start).explored ↔ Joined g.linkView a start v := by
  obtain ⟨hunder, hclosed, hq⟩ :=
    (underway_begin hfresh).run hfresh fun v hv => absurd hv List.not_mem_nil
  have hfound : ∀ w, ((begin before start).run g.linkView a start).Found w
      → w ∈ ((begin before start).run g.linkView a start).explored := fun w hw => by
    simpa [Found, hq] using hw
  refine ⟨fun hv => hunder.joined v (.inl hv), fun hv => ?_⟩
  induction hv with
  | refl => exact hfound start hunder.found_start
  | step _ htouch ih => exact hfound _ (hclosed _ ih _ htouch)

/-- **The lowest-named vertex found is the label of the part.** -/
theorem foldl_lowest_explored (hstart : start < g.vertexCount) :
    ((begin before start).run g.linkView a start).explored.foldl g.linkView.lowest start
      = (a.refine g.linkView).labelOf start := by
  have hmem : ∀ v, v ∈ ((begin before start).run g.linkView a start).explored
      ↔ Joined g.linkView a start v := fun v => mem_explored_run hfresh
  obtain ⟨hin, hmin⟩ := foldl_lowest g ((begin before start).run g.linkView a start).explored hstart
    fun v hv => ((hmem v).mp hv).lt hstart
  set lowest := ((begin before start).run g.linkView a start).explored.foldl g.linkView.lowest start
  have hjoined : Joined g.linkView a start lowest := by
    rcases List.mem_cons.mp hin with heq | hin
    · exact heq ▸ .refl _
    · exact (hmem _).mp hin
  have hlabel : (a.refine g.linkView).labelOf lowest = (a.refine g.linkView).labelOf start :=
    (labelOf_refine_eq_iff (hjoined.lt hstart) hstart).mpr hjoined.symm
  have hown := joined_refine a hstart
  refine CallGraph.rank_injOn (hjoined.lt hstart) (hown.lt hstart) (le_antisymm ?_ ?_)
  · exact hmin _ (List.mem_cons_of_mem _ ((hmem _).mpr hown))
  · rw [← hlabel]
    exact (canonical_refine g a).rank_labelOf_le _ (hjoined.lt hstart)

end Fresh

/-! ## One search after the other -/

/-- Writing `x` at the places of a list. -/
theorem foldl_setIfInBounds (x : Option ℕ) : ∀ (l : List ℕ) (labels : Array (Option ℕ)),
    (∀ u ∈ l, u < labels.size) →
    (l.foldl (fun labels u => labels.setIfInBounds u x) labels).size = labels.size
      ∧ ∀ v, (l.foldl (fun labels u => labels.setIfInBounds u x) labels)[v]?
        = if v ∈ l then some x else labels[v]?
  | [], _, _ => by simp
  | u :: l, labels, h => by
    rw [List.forall_mem_cons] at h
    obtain ⟨hsize, hget⟩ := foldl_setIfInBounds x l (labels.setIfInBounds u x) (by simpa using h.2)
    refine ⟨hsize.trans Array.size_setIfInBounds, fun v => ?_⟩
    rw [List.foldl_cons, hget, Array.getElem?_setIfInBounds, if_pos h.1]
    by_cases hl : v ∈ l
    · simp [hl]
    · simp [hl, eq_comm]

/-- **A search labels the part of its vertex and nothing else.** -/
theorem labelPart_spec (hsize : before.size = g.vertexCount) (hstart : start < g.vertexCount)
    (hfresh : ∀ v, Joined g.linkView a start v → before[v]? = some none) :
    (labelPart g.linkView a before start).size = before.size
      ∧ (∀ v, Joined g.linkView a start v →
        (labelPart g.linkView a before start)[v]? = some (some ((a.refine g.linkView).labelOf v)))
      ∧ ∀ v, ¬ Joined g.linkView a start v →
        (labelPart g.linkView a before start)[v]? = before[v]? := by
  obtain ⟨hunder, -, -⟩ := (underway_begin hfresh).run hfresh fun v hv => absurd hv List.not_mem_nil
  have hnone : ¬ (before.getD start none).isSome := by
    rw [Array.getD_eq_getD_getElem?, hfresh start (.refl start)]
    exact Bool.false_ne_true
  have hpart : labelPart g.linkView a before start
      = ((begin before start).run g.linkView a start).explored.foldl
        (fun labels v => labels.setIfInBounds v (some ((a.refine g.linkView).labelOf start)))
        ((begin before start).run g.linkView a start).labels := by
    rw [← foldl_lowest_explored hfresh hstart]
    exact if_neg hnone
  obtain ⟨hlength, hget⟩ := foldl_setIfInBounds (some ((a.refine g.linkView).labelOf start))
    ((begin before start).run g.linkView a start).explored
    ((begin before start).run g.linkView a start).labels fun v hv => by
      rw [hunder.size_labels, hsize]
      exact ((mem_explored_run hfresh).mp hv).lt hstart
  refine ⟨?_, fun v hv => ?_, fun v hv => ?_⟩
  · rw [hpart, hlength, hunder.size_labels]
  · rw [hpart, hget, if_pos ((mem_explored_run hfresh).mpr hv),
      (labelOf_refine_eq_iff hstart (hv.lt hstart)).mpr hv]
  · rw [hpart, hget, if_neg ((mem_explored_run hfresh).not.mpr hv)]
    exact hunder.labels_other v fun hfound => hv (hunder.joined v hfound)

/-- Whether the parts of the first `k` vertices have their labels, and the other parts none. -/
structure Labelled (g : CallGraph) (a : Assignment) (k : ℕ) (labels : Array (Option ℕ)) : Prop where
  size_eq : labels.size = g.vertexCount
  found : ∀ u < k, ∀ v, Joined g.linkView a u v →
    labels[v]? = some (some ((a.refine g.linkView).labelOf v))
  other : ∀ v < g.vertexCount, (∀ u < k, ¬ Joined g.linkView a u v) → labels[v]? = some none

theorem labelled_blank (g : CallGraph) (a : Assignment) :
    Labelled g a 0 (.replicate g.vertexCount none) where
  size_eq := Array.size_replicate
  found u hu := absurd hu (Nat.not_lt_zero u)
  other v hv _ := by rw [Array.getElem?_replicate, if_pos hv]

/-- **The next vertex is in a part that has its label, or its search labels it.** -/
theorem Labelled.labelPart (h : Labelled g a k before) (hk : k < g.vertexCount) :
    Labelled g a (k + 1) (labelPart g.linkView a before k) := by
  by_cases hold : ∃ j < k, Joined g.linkView a j k
  · obtain ⟨j, hj, hjk⟩ := hold
    have hsome : (before.getD k none).isSome := by
      rw [Array.getD_eq_getD_getElem?, h.found j hj k hjk]
      rfl
    have hsame : Search.labelPart g.linkView a before k = before := if_pos hsome
    rw [hsame]
    refine ⟨h.size_eq, fun u hu v huv => ?_, fun v hv hnone => ?_⟩
    · rcases Nat.lt_succ_iff_lt_or_eq.mp hu with hu | rfl
      · exact h.found u hu v huv
      · exact h.found j hj v (hjk.trans huv)
    · exact h.other v hv fun u hu => hnone u (Nat.lt_succ_of_lt hu)
  · push Not at hold
    obtain ⟨hsize, hpart, hrest⟩ := labelPart_spec h.size_eq hk fun v hkv =>
      h.other v (hkv.lt hk) fun u hu huv => hold u hu (huv.trans hkv.symm)
    refine ⟨hsize.trans h.size_eq, fun u hu v huv => ?_, fun v hv hnone => ?_⟩
    · rcases Nat.lt_succ_iff_lt_or_eq.mp hu with hu | rfl
      · rw [hrest v fun hkv => hold u hu (huv.trans hkv.symm), h.found u hu v huv]
      · exact hpart v huv
    · rw [hrest v (hnone k (Nat.lt_succ_self k)),
        h.other v hv fun u hu => hnone u (Nat.lt_succ_of_lt hu)]

theorem labelled_foldl (g : CallGraph) (a : Assignment) : ∀ k ≤ g.vertexCount,
    Labelled g a k ((List.range k).foldl (labelPart g.linkView a) (.replicate g.vertexCount none))
  | 0, _ => labelled_blank g a
  | k + 1, hk => by
    rw [List.range_succ, List.foldl_append]
    exact (labelled_foldl g a k (Nat.le_of_succ_le hk)).labelPart hk

end Search

/-- **Searching finds the parts that the rounds of exchange find.** -/
theorem Assignment.search_eq_refine (g : CallGraph) (a : Assignment) :
    a.search g.linkView = a.refine g.linkView := by
  have hlabelled := Search.labelled_foldl g a g.vertexCount le_rfl
  refine ext_labelOf ?_ fun v hv => ?_
  · rw [search, size_tabulate, linkView_size, (valid_refine g a).1]
  · rw [search, size_tabulate] at hv
    rw [search, labelOf_tabulate _ hv, linkView_size, linkView_vertexList, vertexList,
      Array.getD_eq_getD_getElem?, hlabelled.found v (linkView_size g ▸ hv) v (.refl v)]
    rfl

end CallCommunities
