import CallCommunities.SortedMap
import Mathlib.Data.List.Nodup

/-!
# Proofs/Maps — sorted maps by their look-ups

A map of a list of pairs finds what the list holds (`get?_foldl_insert_of_mem`), and **the distinct
members of a list in increasing order are its members** (`mem_sortDistinct`); two lists in increasing
order are equal when they have the same members (`eq_of_pairwise_before`).

A table of groups is filled in one pass, each item being added to the group of its key.  **A group in the
end holds what was added under its key, in order** (`getD_get?_gatherBy`), and the keys of the table are
the keys of the items (`mem_keys_gatherBy`).
-/

namespace CallCommunities

open KeyOrder

/-- **A list in increasing order is its members.** -/
theorem eq_of_pairwise_before {κ : Type} [KeyOrder κ] {l l' : List κ}
    (hl : l.Pairwise fun j k => before j k = true) (hl' : l'.Pairwise fun j k => before j k = true)
    (h : ∀ k, k ∈ l ↔ k ∈ l') : l = l' := by
  have hperm : l.Perm l' := (List.perm_ext_iff_of_nodup (hl.imp ne_of_before)
    (hl'.imp ne_of_before)).mpr h
  exact hperm.eq_of_pairwise (fun j k _ _ hjk hkj => absurd hkj (by simp [before_asymm hjk])) hl hl'

namespace SortedMap

variable {κ ν : Type} [KeyOrder κ] {m : SortedMap κ ν} {j k : κ} {x : ν}

/-! ## Keys and values -/

theorem pairwise_keys (m : SortedMap κ ν) : m.keys.Pairwise fun j k => before j k = true :=
  List.pairwise_map.mpr m.sorted

theorem nodup_keys (m : SortedMap κ ν) : m.keys.Nodup :=
  List.pairwise_map.mpr (m.sorted.imp KeyOrder.ne_of_before)

theorem get?_eq_none_of_notMem {m : SortedMap κ ν} {k : κ} (h : k ∉ m.keys) : m.get? k = none := by
  refine Option.not_isSome_iff_eq_none.mp fun hk => h ?_
  exact contains_iff_mem_keys.mp hk

theorem mem_keys_iff {m : SortedMap κ ν} {k : κ} : k ∈ m.keys ↔ ∃ x, m.get? k = some x := by
  rw [← contains_iff_mem_keys, contains, Option.isSome_iff_exists]

theorem mem_values_iff {m : SortedMap κ ν} {x : ν} : x ∈ m.values ↔ ∃ k, m.get? k = some x := by
  simp only [values, List.mem_map, get?_eq_some_iff, Prod.exists, exists_eq_right]

/-! ## Maps of lists -/

theorem get?_foldl_insert_of_notMem {k : κ} : ∀ {l : List (κ × ν)} {m : SortedMap κ ν},
    k ∉ l.map (·.1) → (l.foldl (fun m e => m.insert e.1 e.2) m).get? k = m.get? k
  | [], _, _ => rfl
  | e :: l, m, h => by
    rw [List.map_cons, List.mem_cons, not_or] at h
    rw [List.foldl_cons, get?_foldl_insert_of_notMem h.2, get?_insert_of_ne _ _ h.1]

theorem get?_foldl_insert_of_mem {k : κ} {x : ν} : ∀ {l : List (κ × ν)} {m : SortedMap κ ν},
    (l.map (·.1)).Nodup → (k, x) ∈ l →
    (l.foldl (fun m e => m.insert e.1 e.2) m).get? k = some x
  | e :: l, m, hl, h => by
    obtain ⟨hout, hl⟩ := List.nodup_cons.mp hl
    rw [List.foldl_cons]
    rcases List.mem_cons.mp h with rfl | h
    · rw [get?_foldl_insert_of_notMem hout, get?_insert_self]
    · exact get?_foldl_insert_of_mem hl h

theorem mem_keys_upsert {f : Option ν → ν} : j ∈ (m.upsert k f).keys ↔ j = k ∨ j ∈ m.keys := by
  rw [mem_keys_iff, mem_keys_iff]
  by_cases hj : j = k
  · subst hj
    exact iff_of_true ⟨_, get?_upsert_self m j f⟩ (.inl rfl)
  · rw [get?_upsert_of_ne m f hj, or_iff_right hj]

theorem mem_keys_foldl_insert : ∀ {l : List (κ × ν)} {m : SortedMap κ ν},
    k ∈ (l.foldl (fun m e => m.insert e.1 e.2) m).keys ↔ k ∈ m.keys ∨ k ∈ l.map (·.1)
  | [], m => by simp
  | e :: l, m => by
    rw [List.foldl_cons, mem_keys_foldl_insert, insert, mem_keys_upsert, List.map_cons,
      List.mem_cons, or_assoc, or_left_comm]

theorem mem_keys_ofList {l : List (κ × ν)} : k ∈ (ofList l).keys ↔ k ∈ l.map (·.1) :=
  mem_keys_foldl_insert.trans (or_iff_right (by simp [empty, keys]))

/-- **The distinct members are the members**, ... -/
@[simp] theorem mem_sortDistinct {l : List κ} : k ∈ sortDistinct l ↔ k ∈ l := by
  rw [sortDistinct, mem_keys_ofList, List.map_map]
  simp

/-- ... in increasing order. -/
theorem pairwise_sortDistinct (l : List κ) :
    (sortDistinct l).Pairwise fun j k => before j k = true := pairwise_keys _

/-- A map of a list without repeated keys has the entries of the list. -/
theorem mem_entries_ofList {l : List (κ × ν)} (hl : (l.map (·.1)).Nodup) {e : κ × ν} :
    e ∈ (ofList l).entries ↔ e ∈ l := by
  obtain ⟨k, x⟩ := e
  have hmem {y : ν} (h : (k, y) ∈ l) : (ofList l).get? k = some y := get?_foldl_insert_of_mem hl h
  rw [← get?_eq_some_iff]
  constructor
  · intro hx
    obtain ⟨⟨j, y⟩, hy, rfl⟩ := List.mem_map.mp (mem_keys_ofList.mp (mem_keys_iff.mpr ⟨x, hx⟩))
    rw [hmem hy] at hx
    exact Option.some.inj hx ▸ hy
  · exact hmem

/-! ## Leaving keys out -/

theorem get?_erase_of_ne (m : SortedMap κ ν) (h : j ≠ k) : (m.erase k).get? j = m.get? j := by
  refine Option.ext fun y => ?_
  rw [get?_eq_some_iff, get?_eq_some_iff, erase, filterKeys, List.mem_filter]
  refine and_iff_left ?_
  by_contra hbefore
  rw [Bool.not_eq_true, Bool.or_eq_false_iff] at hbefore
  exact h (eq_of_not_before hbefore.1 hbefore.2)

/-! ## Tables of groups -/

section Groups

variable {α β : Type} {key : α → κ} {start : β} {add : β → α → β}

/-- Adds every item of a list to the group of its key in a table; a group that is not there yet starts
as `start`. -/
def gatherInto (key : α → κ) (start : β) (add : β → α → β) (table : SortedMap κ β) (l : List α) :
    SortedMap κ β :=
  l.foldl (fun table x => table.upsert (key x) fun old => add (old.getD start) x) table

/-- The table of the groups of a list. -/
def gatherBy (key : α → κ) (start : β) (add : β → α → β) (l : List α) : SortedMap κ β :=
  gatherInto key start add empty l

theorem getD_get?_gatherInto [DecidableEq κ] (k : κ) : ∀ (l : List α) (table : SortedMap κ β),
    ((gatherInto key start add table l).get? k).getD start
      = (l.filter fun x => key x = k).foldl add ((table.get? k).getD start)
  | [], _ => rfl
  | x :: l, table => by
    refine (getD_get?_gatherInto k l
      (table.upsert (key x) fun old => add (old.getD start) x)).trans ?_
    by_cases hk : key x = k
    · subst hk
      rw [get?_upsert_self, List.filter_cons_of_pos (by simp), List.foldl_cons, Option.getD_some]
    · rw [get?_upsert_of_ne _ _ (Ne.symm hk), List.filter_cons_of_neg (by simpa using hk)]

/-- **A group holds what was added under its key, in order.** -/
theorem getD_get?_gatherBy [DecidableEq κ] (k : κ) (l : List α) :
    ((gatherBy key start add l).get? k).getD start = (l.filter fun x => key x = k).foldl add start :=
  getD_get?_gatherInto k l empty

theorem mem_keys_gatherInto (k : κ) : ∀ (l : List α) (table : SortedMap κ β),
    k ∈ (gatherInto key start add table l).keys ↔ k ∈ table.keys ∨ k ∈ l.map key
  | [], table => by simp [gatherInto]
  | x :: l, table => by
    refine (mem_keys_gatherInto k l
      (table.upsert (key x) fun old => add (old.getD start) x)).trans ?_
    rw [mem_keys_upsert, List.map_cons, List.mem_cons, or_assoc, or_left_comm]

/-- The keys of the table are the keys of the items. -/
theorem mem_keys_gatherBy {l : List α} : k ∈ (gatherBy key start add l).keys ↔ k ∈ l.map key :=
  (mem_keys_gatherInto k l empty).trans (or_iff_right (by simp [empty, keys]))

end Groups

/-- The entries of a map, by its keys. -/
theorem entries_eq_map_keys (m : SortedMap κ ν) (d : ν) :
    m.entries = m.keys.map fun k => (k, (m.get? k).getD d) := by
  rw [keys, List.map_map]
  refine (List.map_id _).symm.trans (List.map_congr_left fun e he => ?_)
  rw [Function.comp_apply, get?_eq_some_iff.mpr he]
  rfl

end SortedMap

end CallCommunities
