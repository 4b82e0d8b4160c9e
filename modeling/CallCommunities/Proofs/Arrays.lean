import Mathlib.Data.List.Basic
import Mathlib.Data.Nat.Notation

/-!
# Proofs/Arrays — arrays as tables of functions

A table lists the values of a function on the numbers below its size.  It reads back as that function
(`getD_tabulated`), and **changing a cell changes the function there** (`modify_tabulated`,
`set_tabulated`), so a loop over the cells of a table is a fold over functions.
-/

namespace CallCommunities

variable {α β : Type}

/-- The values of `f` below `n`. -/
def tabulated (n : ℕ) (f : ℕ → α) : Array α := ((List.range n).map f).toArray

/-! ## Reading -/

theorem getD_tabulated (f : ℕ → α) (d : α) {n v : ℕ} (hv : v < n) :
    ((List.range n).map f).toArray.getD v d = f v := by
  simp [Array.getD_eq_getD_getElem?, hv]

theorem getD_tabulated_of_le (f : ℕ → α) (d : α) {n v : ℕ} (hv : n ≤ v) :
    ((List.range n).map f).toArray.getD v d = d := by
  simp [Array.getD_eq_getD_getElem?, hv]

theorem getD_replicate (n i : ℕ) (d : α) : (Array.replicate n d).getD i d = d := by
  rw [Array.getD_eq_getD_getElem?, Array.getElem?_replicate]
  split <;> rfl

theorem getD_modify {d : α} (t : Array α) (f : α → α) (i c : ℕ) (hc : c < t.size) :
    (t.modify i f).getD c d = if i = c then f (t.getD c d) else t.getD c d := by
  rw [Array.getD_eq_getD_getElem?, Array.getD_eq_getD_getElem?, Array.getElem?_modify,
    Array.getElem?_eq_getElem hc]
  split <;> rfl

theorem ext_getD {xs ys : Array α} (d : α) (hsize : xs.size = ys.size)
    (h : ∀ i < xs.size, xs.getD i d = ys.getD i d) : xs = ys := by
  refine Array.ext hsize fun i hi hi' => ?_
  have heq := h i hi
  rwa [Array.getD_eq_getD_getElem?, Array.getD_eq_getD_getElem?, Array.getElem?_eq_getElem hi,
    Array.getElem?_eq_getElem hi'] at heq

/-! ## Changing cells -/

variable {n i : ℕ} {f f' : ℕ → α}

@[simp] theorem size_tabulated (n : ℕ) (f : ℕ → α) : (tabulated n f).size = n := by
  simp [tabulated]

theorem getElem_tabulated (h : i < (tabulated n f).size) : (tabulated n f)[i] = f i := by
  simp [tabulated]

theorem tabulated_congr (h : ∀ v < n, f v = f' v) : tabulated n f = tabulated n f' :=
  congrArg List.toArray (List.map_congr_left fun v hv => h v (List.mem_range.mp hv))

theorem replicate_eq_tabulated (n : ℕ) (x : α) : Array.replicate n x = tabulated n fun _ => x :=
  Array.ext (by simp) fun i _ h => by rw [Array.getElem_replicate, getElem_tabulated h]

theorem map_tabulated (p : α → β) (n : ℕ) (f : ℕ → α) :
    (tabulated n f).map p = tabulated n fun v => p (f v) :=
  Array.ext (by simp) fun i h h' => by
    rw [Array.getElem_map, getElem_tabulated, getElem_tabulated h']

/-- **Changing a cell changes the function there.** -/
theorem modify_tabulated (n i : ℕ) (f : ℕ → α) (p : α → α) :
    (tabulated n f).modify i p = tabulated n fun v => if i = v then p (f v) else f v :=
  Array.ext (by simp) fun v h h' => by
    rw [Array.getElem_modify, getElem_tabulated, getElem_tabulated h']

/-- **So does setting it.** -/
theorem set_tabulated (n i : ℕ) (f : ℕ → α) (x : α) :
    (tabulated n f).setIfInBounds i x = tabulated n fun v => if i = v then x else f v :=
  Array.ext (by simp) fun v h h' => by
    rw [Array.getElem_setIfInBounds (by simpa using h), getElem_tabulated, getElem_tabulated h']

/-- The cells of a table, each with its number. -/
theorem zipIdx_tabulated (n : ℕ) (f : ℕ → α) :
    (tabulated n f).toList.zipIdx = (List.range n).map fun v => (f v, v) := by
  refine List.ext_getElem (by simp [tabulated]) fun v h h' => ?_
  simp [tabulated]

end CallCommunities
