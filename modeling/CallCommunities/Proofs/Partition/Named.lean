import CallCommunities.Proofs.Partition.Groups
import Mathlib.Data.List.Forall2

/-!
# Proofs/Partition/Named — assignments by name

Writing an assignment by names and reading names back undo each other: **`ofNames` accepts exactly
the maps that `toNames` writes** for valid assignments (`ofNames_eq_ok_iff`).  The map that is
written gives every vertex the name of its label and has no other keys (`get?_toNames`,
`mem_keys_toNames`).
-/

namespace CallCommunities

/-! ## Reading a list with errors -/

theorem bind_eq_ok_iff {ε α β : Type} {x : Except ε α} {f : α → Except ε β} {y : β} :
    (x >>= f) = .ok y ↔ ∃ z, x = .ok z ∧ f z = .ok y := by
  cases x with
  | error e => exact iff_of_false (fun h => by cases h) fun ⟨z, hz, _⟩ => by cases hz
  | ok z =>
    refine ⟨fun h => ⟨z, rfl, h⟩, ?_⟩
    rintro ⟨w, hw, h⟩
    cases hw
    exact h

theorem bind_eq_error_iff {ε α β : Type} {x : Except ε α} {f : α → Except ε β} {error : ε} :
    (x >>= f) = .error error ↔ x = .error error ∨ ∃ a, x = .ok a ∧ f a = .error error := by
  cases x with
  | error cause =>
    have hbind : (Except.error cause >>= f) = .error cause := rfl
    rw [hbind, Except.error.injEq, Except.error.injEq]
    refine (or_iff_left ?_).symm
    rintro ⟨a, ha, -⟩
    cases ha
  | ok a =>
    refine ⟨fun h => .inr ⟨a, rfl, h⟩, ?_⟩
    rintro (h | ⟨b, hb, h⟩)
    · cases h
    · cases hb
      exact h

theorem mapM_eq_ok_iff {ε α β : Type} {f : α → Except ε β} : ∀ {l : List α} {ys : List β},
    l.mapM f = .ok ys ↔ List.Forall₂ (fun x y => f x = .ok y) l ys
  | [], ys => by
    rw [List.mapM_nil, List.forall₂_nil_left_iff]
    exact ⟨fun h => (Except.ok.inj h).symm, fun h => h ▸ rfl⟩
  | x :: l, ys => by
    rw [List.mapM_cons, List.forall₂_cons_left_iff]
    constructor
    · intro h
      obtain ⟨y, hy, h⟩ := bind_eq_ok_iff.mp h
      obtain ⟨zs, hzs, h⟩ := bind_eq_ok_iff.mp h
      exact ⟨y, zs, hy, mapM_eq_ok_iff.mp hzs, (Except.ok.inj h).symm⟩
    · rintro ⟨y, zs, hy, hzs, rfl⟩
      rw [hy, mapM_eq_ok_iff.mpr hzs]
      rfl

namespace Assignment

open CallGraph

variable {g : CallGraph} {a b : Assignment} {p : SortedMap String String} {v : ℕ} {s : String}

/-! ## The map that is written -/

theorem nodup_pairs (g : CallGraph) (a : Assignment) :
    ((g.vertexList.map fun v => (g.name v, g.name (a.labelOf v))).map (·.1)).Nodup := by
  rw [List.map_map]
  exact map_name_vertexList g ▸ g.vertices.nodup

/-- **Every vertex is written with the name of its label.** -/
theorem get?_toNames (a : Assignment) (hv : v < g.vertexCount) :
    (toNames g a).get? (g.name v) = some (g.name (a.labelOf v)) :=
  SortedMap.get?_foldl_insert_of_mem (nodup_pairs g a)
    (List.mem_map.mpr ⟨v, List.mem_range.mpr hv, rfl⟩)

/-- Nothing but vertices is written. -/
theorem get?_toNames_eq_none (a : Assignment) (hs : s ∉ g.vertices.items) :
    (toNames g a).get? s = none := by
  refine SortedMap.get?_foldl_insert_of_notMem fun h => hs ?_
  rw [← map_name_vertexList g]
  rwa [List.map_map] at h

theorem mem_keys_toNames (a : Assignment) :
    s ∈ (toNames g a).keys ↔ s ∈ g.vertices.items := by
  rw [← SortedMap.contains_iff_mem_keys, SortedMap.contains]
  constructor
  · intro h
    by_contra hs
    rw [get?_toNames_eq_none a hs] at h
    cases h
  · intro hs
    obtain ⟨v, hv, rfl⟩ := exists_name_eq hs
    rw [get?_toNames a hv]
    rfl

theorem get?_toNames_eq_some_iff {c : String} : (toNames g a).get? s = some c
    ↔ ∃ v, v < g.vertexCount ∧ g.name v = s ∧ g.name (a.labelOf v) = c := by
  constructor
  · intro h
    have hs : s ∈ g.vertices.items := by
      by_contra hs
      rw [get?_toNames_eq_none a hs] at h
      cases h
    obtain ⟨v, hv, rfl⟩ := exists_name_eq hs
    rw [get?_toNames a hv] at h
    exact ⟨v, hv, rfl, Option.some.inj h⟩
  · rintro ⟨v, hv, rfl, rfl⟩
    exact get?_toNames a hv

/-- **Two vertices are written with one name when they have one label.** -/
theorem get?_toNames_eq_iff {u : ℕ} (h : a.Valid g.vertexCount) (hu : u < g.vertexCount)
    (hv : v < g.vertexCount) : (toNames g a).get? (g.name u) = (toNames g a).get? (g.name v)
      ↔ a.labelOf u = a.labelOf v := by
  rw [get?_toNames a hu, get?_toNames a hv, Option.some_inj]
  exact ⟨name_injOn (h.labelOf_lt hu) (h.labelOf_lt hv), congrArg _⟩

/-- A map with the names of all labels, and with no keys but the vertices, is the one written. -/
theorem eq_toNames (hget : ∀ v < g.vertexCount, p.get? (g.name v) = some (g.name (a.labelOf v)))
    (hkeys : ∀ s ∈ p.keys, s ∈ g.vertices.items) : p = toNames g a := by
  refine SortedMap.ext_get? fun s => ?_
  by_cases hs : s ∈ g.vertices.items
  · obtain ⟨v, hv, rfl⟩ := exists_name_eq hs
    rw [hget v hv, get?_toNames a hv]
  · rw [get?_toNames_eq_none a hs, SortedMap.get?_eq_none_of_notMem fun h => hs (hkeys s h)]

/-! ## Reading it back -/

/-- The label that a map gives a vertex. -/
def readLabel (g : CallGraph) (p : SortedMap String String) (s : String) : Except Error ℕ :=
  match g.vertexOf? ((p.get? s).getD "") with
  | some c => .ok c
  | none => .error (.unknownCommunity ((p.get? s).getD ""))

theorem readLabel_eq_ok_iff {c : ℕ} :
    readLabel g p s = .ok c ↔ g.vertexOf? ((p.get? s).getD "") = some c := by
  unfold readLabel
  split
  · rename_i d hd
    rw [hd, Option.some_inj]
    exact ⟨fun h => Except.ok.inj h, congrArg _⟩
  · rename_i hnone
    exact iff_of_false (fun h => by cases h) (by simp [hnone])

/-- The vertices without a key, in index order. -/
def missing (g : CallGraph) (p : SortedMap String String) : List String :=
  g.vertices.items.filter fun s => !p.contains s

/-- The keys that are no vertices, in increasing order. -/
def stale (g : CallGraph) (p : SortedMap String String) : List String :=
  p.keys.filter fun s => !g.hasVertex s

theorem mem_missing : s ∈ missing g p ↔ s ∈ g.vertices.items ∧ s ∉ p.keys := by
  rw [missing, List.mem_filter, ← SortedMap.contains_iff_mem_keys, Bool.not_eq_true', Bool.not_eq_true]

theorem mem_stale : s ∈ stale g p ↔ s ∈ p.keys ∧ s ∉ g.vertices.items := by
  simp [stale, hasVertex, Roster.contains]

/-- Something is missing or stale unless the keys are the vertices. -/
theorem missing_or_stale_iff : (!(missing g p).isEmpty || !(stale g p).isEmpty) = true
    ↔ ¬ ∀ s, s ∈ p.keys ↔ s ∈ g.vertices.items := by
  rw [← not_iff_not, not_not, Bool.or_eq_true, not_or, Bool.not_eq_true', Bool.not_eq_true',
    Bool.not_eq_false, Bool.not_eq_false, List.isEmpty_iff, List.isEmpty_iff]
  simp only [List.eq_nil_iff_forall_not_mem, mem_missing, mem_stale, ← forall_and]
  exact forall_congr' fun s => by tauto

/-- **A map whose keys are the vertices is read label by label**, ... -/
theorem ofNames_of_keys (h : ∀ s, s ∈ p.keys ↔ s ∈ g.vertices.items) :
    ofNames g p = g.vertices.items.mapM (readLabel g p) >>= fun labels => .ok ⟨labels.toArray⟩ :=
  if_neg fun hbad => missing_or_stale_iff.mp hbad h

/-- ... and any other is refused, with what is missing or stale. -/
theorem ofNames_of_not_keys (h : ¬ ∀ s, s ∈ p.keys ↔ s ∈ g.vertices.items) :
    ofNames g p = .error (.incompleteAssignment (missing g p).length (stale g p).length
      ((missing g p ++ stale g p).take sampleSize)) := if_pos (missing_or_stale_iff.mpr h)

/-- **Names are read when the keys are the vertices and every label can be read.** -/
theorem ofNames_eq_ok_iff_forall₂ : ofNames g p = .ok a
    ↔ (∀ s, s ∈ p.keys ↔ s ∈ g.vertices.items)
      ∧ List.Forall₂ (fun s c => readLabel g p s = .ok c) g.vertices.items a.labels.toList := by
  by_cases hkeys : ∀ s, s ∈ p.keys ↔ s ∈ g.vertices.items
  · rw [ofNames_of_keys hkeys, bind_eq_ok_iff, and_iff_right hkeys]
    constructor
    · rintro ⟨labels, hlabels, h⟩
      obtain rfl := Except.ok.inj h
      exact mapM_eq_ok_iff.mp hlabels
    · intro h
      exact ⟨_, mapM_eq_ok_iff.mpr h, rfl⟩
  · rw [ofNames_of_not_keys hkeys]
    exact iff_of_false (fun h => by cases h) fun h => hkeys h.1

theorem forall₂_readLabel_iff (hs : a.size = g.vertexCount) :
    List.Forall₂ (fun s c => readLabel g p s = .ok c) g.vertices.items a.labels.toList
      ↔ ∀ v < g.vertexCount,
        g.vertexOf? ((p.get? (g.name v)).getD "") = some (a.labelOf v) := by
  have hlen : a.labels.toList.length = g.vertices.items.length := hs
  have hname : ∀ v (hv : v < g.vertices.items.length),
      g.vertices.items.get ⟨v, hv⟩ = g.name v := fun v hv => by
    rw [name, List.getD_eq_getElem?_getD, List.getElem?_eq_getElem hv]
    rfl
  have hlabel : ∀ v (hv : v < a.labels.toList.length),
      a.labels.toList.get ⟨v, hv⟩ = a.labelOf v := fun v hv => (labelOf_eq_getElem hv).symm
  rw [List.forall₂_iff_get]
  constructor
  · rintro ⟨-, h⟩ v hv
    have hread := readLabel_eq_ok_iff.mp (h v hv (hlen.symm ▸ hv))
    rwa [hname v hv, hlabel] at hread
  · intro h
    refine ⟨hlen.symm, fun v hv hv' => readLabel_eq_ok_iff.mpr ?_⟩
    rw [hname v hv, hlabel]
    exact h v hv

/-- **`ofNames` accepts exactly what `toNames` writes.** -/
theorem ofNames_eq_ok_iff : ofNames g p = .ok a ↔ a.Valid g.vertexCount ∧ toNames g a = p := by
  rw [ofNames_eq_ok_iff_forall₂]
  constructor
  · rintro ⟨hkeys, hread⟩
    have hsize : a.size = g.vertexCount := hread.length_eq.symm
    rw [forall₂_readLabel_iff hsize] at hread
    refine ⟨valid_of_labelOf_lt hsize fun v hv => (vertexOf?_eq_some_iff.mp (hread v hv)).1, ?_⟩
    refine (eq_toNames (fun v hv => ?_) fun s hs => (hkeys s).mp hs).symm
    obtain ⟨s, hs⟩ := SortedMap.mem_keys_iff.mp ((hkeys _).mpr (name_mem hv))
    have hlabel := (vertexOf?_eq_some_iff.mp (hread v hv)).2
    rw [hs, Option.getD_some] at hlabel
    rw [hs, hlabel]
  · rintro ⟨hvalid, rfl⟩
    refine ⟨fun s => mem_keys_toNames a, ?_⟩
    rw [forall₂_readLabel_iff hvalid.1]
    intro v hv
    rw [get?_toNames a hv, Option.getD_some, vertexOf?_name (hvalid.labelOf_lt hv)]

/-- What is written for a valid assignment is read back as it was. -/
theorem ofNames_toNames (h : a.Valid g.vertexCount) : ofNames g (toNames g a) = .ok a :=
  ofNames_eq_ok_iff.mpr ⟨h, rfl⟩

/-- Valid assignments written by the same names are the same. -/
theorem toNames_injOn (ha : a.Valid g.vertexCount) (hb : b.Valid g.vertexCount)
    (h : toNames g a = toNames g b) : a = b := by
  have hread := ofNames_toNames ha
  rw [h, ofNames_toNames hb] at hread
  exact (Except.ok.inj hread).symm

end Assignment

end CallCommunities
