import CallCommunities.Roster
import Mathlib.Data.List.Induction
import Mathlib.Data.List.Nodup
import Mathlib.Tactic.Tauto

/-!
# Proofs/Mention — orders of first mention

A new entry of a roster gets the next index and changes no other (`indexOf?_mention`).  A roster built
from a list holds exactly its members (`mem_ofList`), each at the place of its first mention.  **First
mentions compose**: mentioning the images of a list is mentioning the images of its roster (`ofList_map`),
and a list without repetitions is its own roster (`items_ofList_of_nodup`).
-/

namespace CallCommunities

namespace Roster

variable {α β : Type} [DecidableEq α] [DecidableEq β]

/-! ## Indices -/

/-- **The index of an entry is where it stands.** -/
theorem indexOf?_eq_some_iff {t : Roster α} {x : α} {i : ℕ} :
    t.indexOf? x = some i ↔ t.items[i]? = some x := by
  rw [indexOf?, List.idxOf?_eq_some_iff, List.getElem?_eq_some_iff]
  constructor
  · rintro ⟨hi, hx, -⟩
    exact ⟨hi, hx⟩
  · rintro ⟨hi, hx⟩
    refine ⟨hi, hx, fun j hji hj => ?_⟩
    exact absurd ((t.nodup.getElem_inj_iff).mp (hj.trans hx.symm)) (by omega)

theorem exists_indexOf?_of_mem {t : Roster α} {x : α} (h : x ∈ t.items) :
    ∃ i, i < t.size ∧ t.indexOf? x = some i := by
  obtain ⟨i, hi, hx⟩ := List.getElem_of_mem h
  exact ⟨i, hi, indexOf?_eq_some_iff.mpr (List.getElem?_eq_some_iff.mpr ⟨hi, hx⟩)⟩

theorem notMem_of_indexOf?_eq_none {t : Roster α} {x : α} (h : t.indexOf? x = none) :
    x ∉ t.items := by
  intro hx
  obtain ⟨i, -, hi⟩ := exists_indexOf?_of_mem hx
  rw [h] at hi
  cases hi

/-- A new entry gets the next index, and the others keep theirs. -/
theorem indexOf?_mention {t : Roster α} {x : α} (hx : x ∉ t.items) (y : α) :
    (t.mention x).indexOf? y = if x = y then some t.items.length else t.indexOf? y := by
  refine Option.ext fun i => ?_
  rw [indexOf?_eq_some_iff, items_mention, if_neg hx, List.getElem?_append]
  by_cases hy : x = y
  · subst hy
    rw [if_pos rfl, Option.some.injEq]
    split
    · rename_i hi
      exact iff_of_false (fun h => hx (List.mem_of_getElem? h)) (by omega)
    · rw [List.getElem?_singleton]
      split <;> simp <;> omega
  · rw [if_neg hy, indexOf?_eq_some_iff]
    split
    · rfl
    · rename_i hi
      rw [List.getElem?_singleton, List.getElem?_eq_none (Nat.not_lt.mp hi)]
      split <;> simp [hy]

/-! ## Rosters of lists -/

theorem mem_foldl_mention {x : α} : ∀ {l : List α} {t : Roster α},
    x ∈ (l.foldl mention t).items ↔ x ∈ t.items ∨ x ∈ l
  | [], t => by simp
  | y :: l, t => by
    rw [List.foldl_cons, mem_foldl_mention, mem_mention, List.mem_cons]
    tauto

@[simp] theorem mem_ofList {x : α} {l : List α} : x ∈ (ofList l).items ↔ x ∈ l := by
  rw [ofList, mem_foldl_mention]
  simp

theorem ofList_append_singleton (l : List α) (x : α) :
    ofList (l ++ [x]) = (ofList l).mention x := by
  rw [ofList, List.foldl_append]
  rfl

/-- **A roster is its list without the repeats.** -/
theorem items_ofList (l : List α) : (ofList l).items = l.eraseDups := by
  induction l using List.reverseRecOn with
  | nil => rfl
  | append_singleton l x ih =>
    rw [ofList_append_singleton, items_mention, ih, List.eraseDups_append, List.removeAll]
    by_cases hx : x ∈ l
    · rw [if_pos (List.mem_eraseDups.mpr hx)]
      simp [hx]
    · rw [if_neg (mt List.mem_eraseDups.mp hx)]
      simp [hx, List.eraseDups_cons]

theorem mention_of_mem {t : Roster α} {x : α} (h : x ∈ t.items) : t.mention x = t := dif_pos h

/-- What has been mentioned adds nothing. -/
theorem ofList_append_of_subset {l l' : List α} (h : ∀ x ∈ l', x ∈ l) :
    ofList (l ++ l') = ofList l := by
  induction l' using List.reverseRecOn with
  | nil => rw [List.append_nil]
  | append_singleton l' x ih =>
    rw [← List.append_assoc, ofList_append_singleton, ih fun y hy => h y (by simp [hy])]
    exact mention_of_mem (mem_ofList.mpr (h x (by simp)))

/-- **A list without repetitions is its own roster.** -/
theorem items_ofList_of_nodup {l : List α} (h : l.Nodup) : (ofList l).items = l := by
  induction l using List.reverseRecOn with
  | nil => rfl
  | append_singleton l x ih =>
    have hl := List.nodup_append.mp h
    have hx : x ∉ l := fun hx => hl.2.2 x hx x (List.mem_singleton_self x) rfl
    rw [ofList_append_singleton, items_mention, if_neg (by rwa [mem_ofList]), ih hl.1]

/-- **First mentions compose**: the images of a list are first mentioned in the order in which the
images of its roster are. -/
theorem ofList_map (f : α → β) (l : List α) :
    ofList (l.map f) = ofList ((ofList l).items.map f) := by
  induction l using List.reverseRecOn with
  | nil => rfl
  | append_singleton l x ih =>
    rw [List.map_append, List.map_singleton, ofList_append_singleton, ofList_append_singleton, ih,
      items_mention]
    split
    · rename_i hx
      exact mention_of_mem (mem_ofList.mpr (List.mem_map_of_mem hx))
    · rw [List.map_append, List.map_singleton, ofList_append_singleton]

/-- Leaving members out of a list leaves them out of its roster. -/
theorem items_ofList_filter (p : α → Bool) (l : List α) :
    (ofList (l.filter p)).items = (ofList l).items.filter p := by
  induction l using List.reverseRecOn with
  | nil => rfl
  | append_singleton l x ih =>
    rw [List.filter_append, ofList_append_singleton, items_mention]
    cases hp : p x with
    | false =>
      have hnone : [x].filter p = [] := by simp [hp]
      rw [hnone, List.append_nil, ih, apply_ite (List.filter p), List.filter_append, hnone,
        List.append_nil, ite_self]
    | true =>
      have hone : [x].filter p = [x] := by simp [hp]
      have hmem : x ∈ (ofList l).items.filter p ↔ x ∈ (ofList l).items := by
        rw [List.mem_filter, and_iff_left hp]
      rw [hone, ofList_append_singleton, items_mention, ih, apply_ite (List.filter p),
        List.filter_append, hone]
      exact if_congr hmem rfl rfl

/-- An injection carries the order of first mention along. -/
theorem items_ofList_map {f : α → β} {l : List α}
    (hf : ∀ x ∈ l, ∀ y ∈ l, f x = f y → x = y) :
    (ofList (l.map f)).items = (ofList l).items.map f := by
  rw [ofList_map]
  refine items_ofList_of_nodup (List.Nodup.map_on (fun x hx y hy => ?_) (ofList l).nodup)
  exact hf x (mem_ofList.mp hx) y (mem_ofList.mp hy)

/-! ## Lists that repeat alike -/

section Alike

variable {ι γ : Type} [DecidableEq γ] {l : List ι} {f : ι → α} {f' : ι → γ}

omit [DecidableEq γ] in
/-- Images under a map that is injective on other images are first mentioned when those are. -/
theorem items_ofList_map_comp {p : ι → β} {q : β → α}
    (h : ∀ x ∈ l, ∀ y ∈ l, q (p x) = q (p y) → p x = p y) :
    (ofList (l.map fun x => q (p x))).items = (ofList (l.map p)).items.map q := by
  have hcomp : l.map (fun x => q (p x)) = (l.map p).map q := List.map_map.symm
  rw [hcomp, items_ofList_map]
  intro s hs t ht hst
  obtain ⟨x, hx, rfl⟩ := List.mem_map.mp hs
  obtain ⟨y, hy, rfl⟩ := List.mem_map.mp ht
  exact h x hx y hy hst

variable (h : ∀ x ∈ l, ∀ y ∈ l, (f x = f y ↔ f' x = f' y))
include h

/-- Two ways to name the members of a list, as one roster of pairs of names. -/
theorem items_ofList_map_pair :
    (ofList (l.map f)).items = (ofList (l.map fun x => (f x, f' x))).items.map Prod.fst
      ∧ (ofList (l.map f')).items = (ofList (l.map fun x => (f x, f' x))).items.map Prod.snd := by
  constructor
  · exact items_ofList_map_comp (p := fun x => (f x, f' x)) fun x hx y hy hxy =>
      Prod.ext hxy ((h x hx y hy).mp hxy)
  · exact items_ofList_map_comp (p := fun x => (f x, f' x)) fun x hx y hy hxy =>
      Prod.ext ((h x hx y hy).mpr hxy) hxy

/-- **Lists that repeat alike have rosters alike**: of one size, ... -/
theorem size_ofList_map_congr : (ofList (l.map f)).size = (ofList (l.map f')).size := by
  rw [size, size, (items_ofList_map_pair h).1, (items_ofList_map_pair h).2, List.length_map,
    List.length_map]

/-- ... and with corresponding members at the same index. -/
theorem indexOf?_ofList_map_congr {x : ι} (hx : x ∈ l) :
    (ofList (l.map f)).indexOf? (f x) = (ofList (l.map f')).indexOf? (f' x) := by
  refine Option.ext fun i => ?_
  rw [indexOf?_eq_some_iff, indexOf?_eq_some_iff, (items_ofList_map_pair h).1,
    (items_ofList_map_pair h).2, List.getElem?_map, List.getElem?_map, Option.map_eq_some_iff,
    Option.map_eq_some_iff]
  refine exists_congr fun p => and_congr_right fun hp => ?_
  obtain ⟨y, hy, rfl⟩ := List.mem_map.mp (mem_ofList.mp (List.mem_of_getElem? hp))
  exact h y hy x hx

end Alike

end Roster

end CallCommunities
