import CallCommunities.Identity
import CallCommunities.KeyOrder
import Mathlib.Data.String.Basic

/-!
# Proofs/Report/ClassNames — classes as beginnings of names

An identity is its class, a dot and a last part without dots, or it is a class of its own
(`exists_classOf_append`).  Names are in lexicographic order, so what stands between two members of a class
begins with the name of the class too.  **It need not be a member** (`breaks_of_between`): it can belong to
a class inside the class, or, below an identity that is the class itself, go on with a character that comes
before the dot.
-/

namespace CallCommunities

open KeyOrder

/-! ## The last dot -/

theorem beforeLastDot_eq_none_iff : ∀ {l : List Char}, beforeLastDot l = none ↔ '.' ∉ l
  | [] => by simp [beforeLastDot]
  | c :: l => by
    have ih := beforeLastDot_eq_none_iff (l := l)
    rw [beforeLastDot, List.mem_cons, not_or, ← ih]
    cases beforeLastDot l with
    | some p => simp
    | none => simp [eq_comm]

theorem beforeLastDot_append_dot {p x : List Char} (hx : '.' ∉ x) :
    beforeLastDot (p ++ '.' :: x) = some p := by
  induction p with
  | nil => rw [List.nil_append, beforeLastDot, beforeLastDot_eq_none_iff.mpr hx, if_pos rfl]
  | cons c p ih => rw [List.cons_append, beforeLastDot, ih]

/-- **What stands before the last dot is followed by the dot and a part without dots.** -/
theorem beforeLastDot_eq_some_iff {l p : List Char} :
    beforeLastDot l = some p ↔ ∃ x, l = p ++ '.' :: x ∧ '.' ∉ x := by
  constructor
  · intro h
    induction l generalizing p with
    | nil => cases h
    | cons c l ih =>
      rw [beforeLastDot] at h
      cases hl : beforeLastDot l with
      | some q =>
        rw [hl] at h
        obtain ⟨x, rfl, hx⟩ := ih hl
        cases h
        exact ⟨x, rfl, hx⟩
      | none =>
        simp only [hl] at h
        split at h
        · rename_i hc
          cases h
          exact ⟨l, by rw [hc, List.nil_append], beforeLastDot_eq_none_iff.mp hl⟩
        · cases h
  · rintro ⟨x, rfl, hx⟩
    exact beforeLastDot_append_dot hx

/-! ## Classes -/

theorem classOf_of_dot {s k : String} {x : List Char} (hs : s.toList = k.toList ++ '.' :: x)
    (hk : k.toList ≠ []) (hx : '.' ∉ x) : classOf s = k := by
  rw [classOf, beforeLastDot_eq_some_iff.mpr ⟨x, hs, hx⟩]
  cases hk' : k.toList with
  | nil => exact absurd hk' hk
  | cons c rest => exact String.toList_injective (by rw [String.toList_ofList, hk'])

/-- **An identity goes on from its class with a dot and a part without dots**, or is a class of its own. -/
theorem exists_classOf_append (s : String) : ∃ x, s.toList = (classOf s).toList ++ x
    ∧ (x = [] ∨ (classOf s).toList ≠ [] ∧ ∃ y, x = '.' :: y ∧ '.' ∉ y) := by
  have hown (h : classOf s = s) : s.toList = (classOf s).toList ++ [] := by rw [h, List.append_nil]
  cases hs : beforeLastDot s.toList with
  | none => exact ⟨[], hown (by rw [classOf, hs]), .inl rfl⟩
  | some p =>
    cases p with
    | nil => exact ⟨[], hown (by rw [classOf, hs]), .inl rfl⟩
    | cons c rest =>
      obtain ⟨x, hsx, hx⟩ := beforeLastDot_eq_some_iff.mp hs
      have hk : (classOf s).toList = c :: rest := by rw [classOf, hs, String.toList_ofList]
      exact ⟨'.' :: x, by rw [hsx, hk], .inr ⟨by simp [hk], x, rfl, hx⟩⟩

/-- A class has no characters but those of its members. -/
theorem mem_of_mem_classOf {s : String} {c : Char} (h : c ∈ (classOf s).toList) : c ∈ s.toList := by
  obtain ⟨x, hs, -⟩ := exists_classOf_append s
  rw [hs]
  exact List.mem_append_left _ h

/-! ## Between the members of a class -/

/-- What stands between two lists that begin alike begins so too. -/
theorem exists_eq_append_of_between {p a b t : List Char} (hs : p ++ a < t) (hu : t < p ++ b) :
    ∃ z, t = p ++ z ∧ a < z ∧ z < b := by
  induction p generalizing t with
  | nil => exact ⟨t, rfl, hs, hu⟩
  | cons c p ih =>
    cases t with
    | nil => exact absurd hs (List.not_lt_nil _)
    | cons d t =>
      rw [List.cons_append, List.cons_lt_cons_iff] at hs hu
      rcases hs with hcd | ⟨rfl, hs⟩
      · rcases hu with hdc | ⟨rfl, -⟩
        · exact absurd hdc (Char.lt_asymm hcd)
        · exact absurd hcd (Char.lt_irrefl _)
      · obtain ⟨z, rfl, haz, hzb⟩ := ih hs (hu.resolve_left (Char.lt_irrefl _)).2
        exact ⟨z, rfl, haz, hzb⟩

/-- The kinds of names that can stand between the callers of class `k`, though they are of another: those
inside a class inside `k`, and, when `k` is a caller itself, those that go on from `k` with a character
before the dot. -/
def Breaks (isCaller : String → Prop) (k t : String) : Prop :=
  (∃ z, t.toList = k.toList ++ '.' :: z ∧ '.' ∈ z)
    ∨ isCaller k ∧ ∃ c z, t.toList = k.toList ++ c :: z ∧ c < '.'

/-- **What comes between two members of a class is a member itself or breaks into the class.** -/
theorem breaks_of_between {isCaller : String → Prop} {s t u k : String} (hcaller : isCaller s)
    (hs : classOf s = k) (hu : classOf u = k) (ht : classOf t ≠ k)
    (hst : before s t = true) (htu : before t u = true) : Breaks isCaller k t := by
  have hst' : s.toList < t.toList := String.lt_iff_toList_lt.mp (of_decide_eq_true hst)
  have htu' : t.toList < u.toList := String.lt_iff_toList_lt.mp (of_decide_eq_true htu)
  obtain ⟨x, hsx, hx⟩ := exists_classOf_append s
  obtain ⟨y, huy, hy⟩ := exists_classOf_append u
  rw [hs] at hsx hx
  rw [hu] at huy hy
  rw [hsx] at hst'
  rw [huy] at htu'
  obtain ⟨z, htz, hxz, hzy⟩ := exists_eq_append_of_between hst' htu'
  -- `t` comes before `u`, which goes on with a dot, so it goes on with a dot or something before it
  rcases hy with rfl | ⟨hk, y, rfl, -⟩
  · exact absurd hzy (List.not_lt_nil _)
  cases z with
  | nil => exact absurd hxz (List.not_lt_nil _)
  | cons c z =>
    rcases List.cons_lt_cons_iff.mp hzy with hc | ⟨rfl, -⟩
    · -- then `s`, which comes before `t`, cannot go on with a dot: it is the class itself
      rcases hx with rfl | ⟨-, x, rfl, -⟩
      · have hsk : s = k := String.toList_injective (by rw [hsx, List.append_nil])
        exact .inr ⟨hsk ▸ hcaller, c, z, htz, hc⟩
      · rcases List.cons_lt_cons_iff.mp hxz with hc' | ⟨rfl, -⟩
        · exact absurd hc' (Char.lt_asymm hc)
        · exact absurd hc (Char.lt_irrefl _)
    · refine .inl ⟨z, htz, ?_⟩
      by_contra hz
      exact ht (classOf_of_dot htz hk hz)

end CallCommunities
