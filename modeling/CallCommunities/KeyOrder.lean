/-!
# KeyOrder — strict total orders decided by a Boolean test

Every sorted output of the library (names, edges, communities) is sorted by a `KeyOrder`.  Numbers
come in their usual order, pairs and lists in lexicographic order, and texts **by code point**, which
is also the order of their UTF-8 bytes.
-/

namespace CallCommunities

/-- A strict total order: `before a b` says that `a` comes strictly before `b`. -/
class KeyOrder (κ : Type) where
  /-- The test itself. -/
  before : κ → κ → Bool
  before_irrefl (a : κ) : before a a = false
  before_trans {a b c : κ} : before a b = true → before b c = true → before a c = true
  /-- Two keys of which neither comes first are the same key. -/
  eq_of_not_before {a b : κ} : before a b = false → before b a = false → a = b

namespace KeyOrder

variable {κ : Type} [KeyOrder κ]

theorem before_asymm {a b : κ} (h : before a b = true) : before b a = false := by
  cases hba : before b a with
  | false => rfl
  | true => simpa [before_irrefl] using before_trans h hba

theorem ne_of_before {a b : κ} (h : before a b = true) : a ≠ b := by
  rintro rfl
  simp [before_irrefl] at h

instance : KeyOrder Nat where
  before a b := decide (a < b)
  before_irrefl a := by simp
  before_trans hab hbc := by simp only [decide_eq_true_eq] at *; omega
  eq_of_not_before hab hba := by simp only [decide_eq_false_iff_not] at *; omega

/-- Pairs by their first parts, then by their second ones. -/
instance {ι : Type} [KeyOrder ι] : KeyOrder (κ × ι) where
  before a b := before a.1 b.1 || (!before b.1 a.1 && before a.2 b.2)
  before_irrefl a := by simp [before_irrefl]
  before_trans {a b c} hab hbc := by
    simp only [Bool.or_eq_true, Bool.and_eq_true, Bool.not_eq_true'] at *
    rcases hab with hab | ⟨hba, hab⟩ <;> rcases hbc with hbc | ⟨hcb, hbc⟩
    · exact .inl (before_trans hab hbc)
    · cases h : before b.1 c.1 with
      | true => exact .inl (before_trans hab h)
      | false => exact .inl (eq_of_not_before h hcb ▸ hab)
    · cases h : before a.1 b.1 with
      | true => exact .inl (before_trans h hbc)
      | false => exact .inl (eq_of_not_before h hba ▸ hbc)
    · cases h : before a.1 b.1 with
      | true =>
        cases h' : before b.1 c.1 with
        | true => exact .inl (before_trans h h')
        | false => exact .inl (eq_of_not_before h' hcb ▸ h)
      | false => exact .inr ⟨eq_of_not_before h hba ▸ hcb, before_trans hab hbc⟩
  eq_of_not_before {a b} hab hba := by
    simp only [Bool.or_eq_false_iff, Bool.and_eq_false_iff, Bool.not_eq_false'] at *
    have first : a.1 = b.1 := eq_of_not_before hab.1 hba.1
    refine Prod.ext first (eq_of_not_before ?_ ?_)
    · exact hab.2.resolve_left (by simp [hba.1])
    · exact hba.2.resolve_left (by simp [hab.1])

/-- Lexicographic order: the first difference decides, and a beginning comes before the whole. -/
def beforeList : List κ → List κ → Bool
  | _, [] => false
  | [], _ :: _ => true
  | a :: as, b :: bs => before a b || (!before b a && beforeList as bs)

theorem beforeList_irrefl : ∀ as : List κ, beforeList as as = false
  | [] => rfl
  | a :: as => by simp [beforeList, before_irrefl, beforeList_irrefl as]

theorem beforeList_cons {a b : κ} {as bs : List κ} :
    beforeList (a :: as) (b :: bs) = true ↔ before a b = true ∨ a = b ∧ beforeList as bs = true := by
  simp only [beforeList, Bool.or_eq_true, Bool.and_eq_true, Bool.not_eq_true']
  constructor
  · rintro (h | ⟨h, hs⟩)
    · exact .inl h
    · cases hab : before a b with
      | true => exact .inl rfl
      | false => exact .inr ⟨eq_of_not_before hab h, hs⟩
  · rintro (h | ⟨rfl, hs⟩)
    · exact .inl h
    · exact .inr ⟨before_irrefl a, hs⟩

theorem beforeList_trans : ∀ {as bs cs : List κ},
    beforeList as bs = true → beforeList bs cs = true → beforeList as cs = true
  | _, [], _, h, _ => by simp [beforeList] at h
  | _, _ :: _, [], _, h => by simp [beforeList] at h
  | [], _ :: _, _ :: _, _, _ => rfl
  | a :: as, b :: bs, c :: cs, hab, hbc => by
    rw [beforeList_cons] at *
    rcases hab with hab | ⟨rfl, hab⟩ <;> rcases hbc with hbc | ⟨rfl, hbc⟩
    · exact .inl (before_trans hab hbc)
    · exact .inl hab
    · exact .inl hbc
    · exact .inr ⟨rfl, beforeList_trans hab hbc⟩

theorem eq_of_not_beforeList : ∀ {as bs : List κ},
    beforeList as bs = false → beforeList bs as = false → as = bs
  | [], [], _, _ => rfl
  | [], _ :: _, h, _ => by simp [beforeList] at h
  | _ :: _, [], _, h => by simp [beforeList] at h
  | a :: as, b :: bs, hab, hba => by
    simp only [beforeList, Bool.or_eq_false_iff, Bool.and_eq_false_iff, Bool.not_eq_false'] at *
    have head : a = b := eq_of_not_before hab.1 hba.1
    subst head
    rw [eq_of_not_beforeList (hab.2.resolve_left (by simp [before_irrefl]))
      (hba.2.resolve_left (by simp [before_irrefl]))]

instance : KeyOrder (List κ) where
  before := beforeList
  before_irrefl := beforeList_irrefl
  before_trans := beforeList_trans
  eq_of_not_before := eq_of_not_beforeList

/-- Texts by code point: their standard order. -/
instance : KeyOrder String where
  before s t := @decide _ (String.decidableLT s t)
  before_irrefl s := decide_eq_false (String.lt_irrefl s)
  before_trans hst htu :=
    decide_eq_true (String.lt_trans (of_decide_eq_true hst) (of_decide_eq_true htu))
  eq_of_not_before hst hts :=
    String.le_antisymm (String.not_lt.mp (of_decide_eq_false hts))
      (String.not_lt.mp (of_decide_eq_false hst))

end KeyOrder

end CallCommunities
