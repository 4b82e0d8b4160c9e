import CallCommunities.Proofs.Partition.Named

/-!
# Proofs/Partition/Acceptance — which named assignments are accepted, and why others are not

A map of names is read in two steps, and each can fail.  First **the keys have to be the vertices**:
otherwise the map is refused with what is missing and what is stale, whatever its values are
(`ofNames_of_not_keys`).  Then the values are looked up in the order of the vertices, and **the first
that is no vertex is reported** (`ofNames_eq_error_iff_of_keys`).  Nothing else fails, so a map is
accepted exactly when it fits (`exists_ofNames_eq_ok_iff`), and what is accepted is written as it was
read (`names_accepted_exactly`).
-/

namespace CallCommunities

/-- **A list is read up to its first error.** -/
theorem mapM_eq_error_iff {ε α β : Type} {f : α → Except ε β} {e : ε} : ∀ {l : List α},
    l.mapM f = .error e ↔ ∃ (i : ℕ) (x : α), l[i]? = some x ∧ f x = .error e
      ∧ ∀ j < i, ∀ y, l[j]? = some y → ∃ z, f y = .ok z
  | [] => iff_of_false (fun h => by cases h) fun ⟨_, _, h, _⟩ => by cases h
  | x :: l => by
    rw [List.mapM_cons, bind_eq_error_iff]
    -- The error is that of the head, or stands one place later than in the rest.
    constructor
    · rintro (hx | ⟨y, hy, h⟩)
      · exact ⟨0, x, rfl, hx, fun j hj => absurd hj (Nat.not_lt_zero j)⟩
      · rcases bind_eq_error_iff.mp h with hrest | ⟨ys, -, h⟩
        · obtain ⟨i, z, hz, hfail, hbefore⟩ := mapM_eq_error_iff.mp hrest
          refine ⟨i + 1, z, hz, hfail, fun j hj w hw => ?_⟩
          cases j with
          | zero => exact ⟨y, Option.some.inj hw ▸ hy⟩
          | succ j => exact hbefore j (Nat.lt_of_succ_lt_succ hj) w hw
        · cases h
    · rintro ⟨i, z, hz, hfail, hbefore⟩
      cases i with
      | zero => exact .inl (Option.some.inj hz ▸ hfail)
      | succ i =>
        obtain ⟨y, hy⟩ := hbefore 0 i.succ_pos x rfl
        refine .inr ⟨y, hy, bind_eq_error_iff.mpr (.inl (mapM_eq_error_iff.mpr ⟨i, z, hz, hfail, ?_⟩))⟩
        exact fun j hj => hbefore (j + 1) (Nat.succ_lt_succ hj)

namespace Assignment

open CallGraph

variable {g : CallGraph} {p : SortedMap String String} {a : Assignment} {s c : String} {e : Error}

/-! ## One label -/

/-- A value is read when it is a vertex, ... -/
theorem exists_readLabel_eq_ok_iff (hs : p.get? s = some c) :
    (∃ v, readLabel g p s = .ok v) ↔ c ∈ g.vertices.items := by
  simp only [readLabel_eq_ok_iff, hs, Option.getD_some, vertexOf?_eq_some_iff]
  constructor
  · rintro ⟨v, hv, rfl⟩
    exact name_mem hv
  · exact exists_name_eq

/-- ... and reported otherwise. -/
theorem readLabel_eq_error_iff (hs : p.get? s = some c) :
    readLabel g p s = .error e ↔ c ∉ g.vertices.items ∧ e = .unknownCommunity c := by
  rw [← exists_readLabel_eq_ok_iff hs]
  unfold readLabel
  rw [hs, Option.getD_some]
  split
  · rename_i v hv
    exact iff_of_false (fun h => by cases h) fun h => h.1 ⟨v, rfl⟩
  · rw [Except.error.injEq, eq_comm]
    refine (and_iff_right ?_).symm
    rintro ⟨v, hv⟩
    cases hv

/-! ## All labels -/

/-- The value of the vertex `v` is the first that is no vertex. -/
structure FirstUnknown (g : CallGraph) (p : SortedMap String String) (v : ℕ) (c : String) : Prop where
  lt : v < g.vertexCount
  get?_eq : p.get? (g.name v) = some c
  notMem : c ∉ g.vertices.items
  before : ∀ u < v, ∃ d ∈ g.vertices.items, p.get? (g.name u) = some d

/-- **Where the keys are the vertices, only a value that is no vertex fails, and the first one is
reported.** -/
theorem ofNames_eq_error_iff_of_keys (hkeys : ∀ s, s ∈ p.keys ↔ s ∈ g.vertices.items) :
    ofNames g p = .error e ↔ ∃ v c, FirstUnknown g p v c ∧ e = .unknownCommunity c := by
  have hvalue : ∀ v < g.vertexCount, ∃ c, p.get? (g.name v) = some c := fun v hv =>
    SortedMap.mem_keys_iff.mp ((hkeys _).mpr (name_mem hv))
  rw [ofNames_of_keys hkeys, bind_eq_error_iff, or_iff_left (by rintro ⟨_, _, h⟩; cases h),
    mapM_eq_error_iff]
  constructor
  · rintro ⟨v, s, hs, hfail, hbefore⟩
    obtain ⟨hv, rfl⟩ := getElem?_items.mp hs
    obtain ⟨c, hc⟩ := hvalue v hv
    obtain ⟨hnot, he⟩ := (readLabel_eq_error_iff hc).mp hfail
    refine ⟨v, c, ⟨hv, hc, hnot, fun u hu => ?_⟩, he⟩
    have hu' := hu.trans hv
    obtain ⟨d, hd⟩ := hvalue u hu'
    have hread := hbefore u hu _ (getElem?_items.mpr ⟨hu', rfl⟩)
    exact ⟨d, (exists_readLabel_eq_ok_iff hd).mp hread, hd⟩
  · rintro ⟨v, c, h, he⟩
    refine ⟨v, _, getElem?_items.mpr ⟨h.lt, rfl⟩, (readLabel_eq_error_iff h.get?_eq).mpr
      ⟨h.notMem, he⟩, fun u hu s hs => ?_⟩
    obtain ⟨-, rfl⟩ := getElem?_items.mp hs
    obtain ⟨d, hd, hget⟩ := h.before u hu
    exact (exists_readLabel_eq_ok_iff hget).mpr hd

/-- **A map is accepted when its keys are the vertices and its values are vertices.** -/
theorem exists_ofNames_eq_ok_iff : (∃ a, ofNames g p = .ok a)
    ↔ (∀ s, s ∈ p.keys ↔ s ∈ g.vertices.items) ∧ ∀ c ∈ p.values, c ∈ g.vertices.items := by
  constructor
  · rintro ⟨a, ha⟩
    obtain ⟨hvalid, rfl⟩ := ofNames_eq_ok_iff.mp ha
    refine ⟨fun s => mem_keys_toNames a, fun c hc => ?_⟩
    obtain ⟨s, hs⟩ := SortedMap.mem_values_iff.mp hc
    obtain ⟨v, hv, -, rfl⟩ := get?_toNames_eq_some_iff.mp hs
    exact name_mem (hvalid.labelOf_lt hv)
  · rintro ⟨hkeys, hvalues⟩
    cases h : ofNames g p with
    | ok a => exact ⟨a, rfl⟩
    | error e =>
      obtain ⟨v, c, hfirst, -⟩ := (ofNames_eq_error_iff_of_keys hkeys).mp h
      exact absurd (hvalues c (SortedMap.mem_values_iff.mpr ⟨_, hfirst.get?_eq⟩)) hfirst.notMem

/-- What is stale comes in increasing order. -/
theorem pairwise_stale (g : CallGraph) (p : SortedMap String String) :
    (stale g p).Pairwise fun s t => KeyOrder.before s t = true :=
  (List.pairwise_map.mpr p.sorted).sublist List.filter_sublist

end Assignment

open Assignment CallGraph

/-- **A named assignment is accepted exactly when it fits, and nothing is lost on the way.**  One whose
keys are not the vertices is refused with the numbers of the vertices it misses and of its keys that are
no vertices, and with five names of those at most, missing ones first; one with a value that is no
vertex, with the first such value. -/
theorem names_accepted_exactly (g : CallGraph) (p : SortedMap String String) :
    ((∃ a, ofNames g p = .ok a)
      ↔ (∀ s, s ∈ p.keys ↔ s ∈ g.vertices.items) ∧ ∀ c ∈ p.values, c ∈ g.vertices.items)
    ∧ (∀ a, ofNames g p = .ok a → a.Valid g.vertexCount ∧ toNames g a = p)
    ∧ (∀ a, a.Valid g.vertexCount → ofNames g (toNames g a) = .ok a)
    ∧ ((¬ ∀ s, s ∈ p.keys ↔ s ∈ g.vertices.items) → ∃ missing stale : List String,
      missing.Sublist g.vertices.items
      ∧ (∀ s, s ∈ missing ↔ s ∈ g.vertices.items ∧ s ∉ p.keys)
      ∧ (stale.Pairwise fun s t => KeyOrder.before s t = true)
      ∧ (∀ s, s ∈ stale ↔ s ∈ p.keys ∧ s ∉ g.vertices.items)
      ∧ ofNames g p = .error (.incompleteAssignment missing.length stale.length
        ((missing ++ stale).take 5)))
    ∧ ((∀ s, s ∈ p.keys ↔ s ∈ g.vertices.items) → ∀ e, ofNames g p = .error e
      ↔ ∃ v c, FirstUnknown g p v c ∧ e = .unknownCommunity c) :=
  ⟨exists_ofNames_eq_ok_iff, fun _ => ofNames_eq_ok_iff.mp, fun _ => ofNames_toNames,
    fun hkeys => ⟨missing g p, stale g p, List.filter_sublist, fun _ => mem_missing,
      pairwise_stale g p, fun _ => mem_stale, ofNames_of_not_keys hkeys⟩,
    fun hkeys _ => ofNames_eq_error_iff_of_keys hkeys⟩

/-- Three vertices, last name first. -/
def CallGraph.fork : CallGraph := .ofArcs ⟨["c", "b", "a"], by decide⟩ [⟨0, 1, 1⟩, ⟨0, 2, 1⟩]

/-- Misses two vertices of the fork, with four keys and a value that it does not know. -/
def strayNames : SortedMap String String :=
  .ofList [("z", "a"), ("y", "a"), ("x", "a"), ("w", "a"), ("a", "nobody")]

/-- Two values are no vertices; the vertex of the second comes first by name. -/
def homelessNames : SortedMap String String :=
  .ofList [("a", "nobody"), ("b", "nowhere"), ("c", "b")]

theorem names_accepted_exactly_fork :
    (∃ a, ofNames fork (.ofList [("a", "c"), ("b", "c"), ("c", "b")]) = .ok a
      ∧ toNames fork a = .ofList [("a", "c"), ("b", "c"), ("c", "b")])
    ∧ Valid fork.vertexCount ⟨#[1, 0, 0]⟩
    ∧ ofNames fork (toNames fork ⟨#[1, 0, 0]⟩) = .ok ⟨#[1, 0, 0]⟩
    ∧ (∃ missing stale : List String,
      (∀ s, s ∈ missing ↔ s ∈ fork.vertices.items ∧ s ∉ strayNames.keys)
      ∧ ofNames fork strayNames
        = .error (.incompleteAssignment missing.length stale.length ((missing ++ stale).take 5))
      ∧ (missing ++ stale).take 5 = ["c", "b", "w", "x", "y"])
    ∧ ofNames fork homelessNames = .error (.unknownCommunity "nowhere") := by
  have hvalid : Valid fork.vertexCount ⟨#[1, 0, 0]⟩ := ⟨rfl, by decide +kernel⟩
  have hkeys : ∀ {p : SortedMap String String},
      (!(missing fork p).isEmpty || !(stale fork p).isEmpty) = false →
      ∀ s, s ∈ p.keys ↔ s ∈ fork.vertices.items := fun {p} h => by
    by_contra hnot
    exact absurd (missing_or_stale_iff.mpr hnot) (by rw [h]; exact Bool.false_ne_true)
  obtain ⟨haccepted, hwritten, -, -, -⟩ :=
    names_accepted_exactly fork (.ofList [("a", "c"), ("b", "c"), ("c", "b")])
  obtain ⟨a, ha⟩ := haccepted.mpr ⟨hkeys (by decide +kernel), by decide +kernel⟩
  obtain ⟨-, -, hread, -, -⟩ := names_accepted_exactly fork .empty
  obtain ⟨-, -, -, hrefused, -⟩ := names_accepted_exactly fork strayNames
  obtain ⟨missing, stale, -, hmissing, -, -, hcause⟩ :=
    hrefused fun h => absurd ((h "z").mp (by decide +kernel)) (by decide +kernel)
  obtain ⟨-, -, -, -, hunknown⟩ := names_accepted_exactly fork homelessNames
  have hfirst : FirstUnknown fork homelessNames 1 "nowhere" :=
    ⟨by decide +kernel, by decide +kernel, by decide +kernel, by decide +kernel⟩
  refine ⟨⟨a, ha, (hwritten a ha).2⟩, hvalid, hread _ hvalid, ⟨missing, stale, hmissing, hcause, ?_⟩,
    (hunknown (hkeys (by decide +kernel)) _).mpr ⟨1, "nowhere", hfirst, rfl⟩⟩
  have hsample : ofNames fork strayNames
      = .error (.incompleteAssignment 2 4 ["c", "b", "w", "x", "y"]) := by decide +kernel
  injection hcause.symm.trans hsample with hcause
  injection hcause

end CallCommunities
