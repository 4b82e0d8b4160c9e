import CallCommunities.Proofs.Graph.Built

/-!
# Proofs/Words/Tally — building in words

Calls can be added up one after the other in words of 64 bits: a running total, and a word for every
pair of vertices that has had calls.  The tally stops at the first call with which the total wraps
around or passes the limit.

The total never shrinks, so no later call makes up for an excess, and no word of a pair is beyond the
total.  Hence **the tally stops exactly when all calls come to more than the limit, and else it holds
the weights of the built graph** (`tally_eq_error_iff`, `exists_tally_eq`).
-/

namespace CallCommunities

open CallGraph

/-- What has been added up so far, in words. -/
structure Tally where
  total : UInt64
  /-- The calls of each ordered pair of vertices that has had any. -/
  weights : SortedMap (ℕ × ℕ) UInt64

namespace Tally

/-- Nothing added up yet. -/
def empty : Tally := ⟨0, .empty⟩

/-- The sum of two words, unless it wraps around. -/
def checkedAdd (x y : UInt64) : Option UInt64 := if x + y < x then none else some (x + y)

/-- Adds the calls of an arc, unless the total wraps around or passes the limit. -/
def add (t : Tally) (e : Arc) : Except Error Tally :=
  match (checkedAdd t.total (.ofNat e.weight)).filter (· ≤ .ofNat maxTotalWeight) with
  | some total =>
    .ok ⟨total, t.weights.upsert (e.source, e.target) fun old => old.getD 0 + .ofNat e.weight⟩
  | none => .error (.weightOverflow maxTotalWeight)

/-- The words of a tally are the sums over arcs, which are within the limit. -/
structure Holds (t : Tally) (arcs : List Arc) : Prop where
  total_eq : t.total.toNat = sumOver Arc.weight arcs
  total_le : sumOver Arc.weight arcs ≤ maxTotalWeight
  weights_eq : ∀ k, (t.weights.get? k).map UInt64.toNat = (accumulate arcs).get? k

variable {t : Tally} {arcs rest : List Arc} {e : Arc}

theorem holds_empty : empty.Holds [] := ⟨rfl, Nat.zero_le _, fun _ => rfl⟩

/-! ## One call -/

/-- **A sum that wraps around is noticed.** -/
theorem checkedAdd_eq (x y : UInt64) :
    checkedAdd x y = if x.toNat + y.toNat < UInt64.size then some (x + y) else none := by
  have hx := x.toNat_lt_size
  have hy := y.toNat_lt_size
  have hsum := UInt64.toNat_add x y
  rw [checkedAdd, ← ite_not]
  refine if_congr ?_ rfl rfl
  rw [UInt64.lt_iff_toNat_lt, hsum]
  simp only [UInt64.size] at hx hy ⊢
  omega

theorem filter_checkedAdd (x y : UInt64) :
    (checkedAdd x y).filter (· ≤ .ofNat maxTotalWeight)
      = if x.toNat + y.toNat ≤ maxTotalWeight then some (x + y) else none := by
  have hlimit : maxTotalWeight < UInt64.size := by decide
  rw [checkedAdd_eq]
  by_cases hfit : x.toNat + y.toNat < UInt64.size
  · have hsum : (x + y).toNat = x.toNat + y.toNat :=
      (UInt64.toNat_add x y).trans (Nat.mod_eq_of_lt hfit)
    rw [if_pos hfit, Option.filter_some]
    refine if_congr ?_ rfl rfl
    rw [decide_eq_true_iff, UInt64.le_iff_toNat_le, hsum, UInt64.toNat_ofNat_of_lt' hlimit]
  · rw [if_neg hfit, if_neg (by omega)]
    rfl

theorem sum_snoc (arcs : List Arc) (e : Arc) :
    sumOver Arc.weight (arcs ++ [e]) = sumOver Arc.weight arcs + e.weight := by
  rw [sumOver_append, sumOver_cons, sumOver_nil, Nat.add_zero]

/-- The calls of one pair are among all calls. -/
theorem getD_accumulate_le (arcs : List Arc) (k : ℕ × ℕ) :
    ((accumulate arcs).get? k).getD 0 ≤ sumOver Arc.weight arcs := by
  rw [accumulate, getD_get?_foldl_add, SortedMap.get?_empty, Option.getD_none, Nat.zero_add]
  induction arcs with
  | nil => exact le_rfl
  | cons e rest ih =>
    refine Nat.add_le_add ?_ ih
    show (if (e.source, e.target) = k then e.weight else 0) ≤ e.weight
    split <;> omega

theorem toNat_total_add (h : t.Holds arcs) (he : e.weight < UInt64.size) :
    t.total.toNat + (UInt64.ofNat e.weight).toNat = sumOver Arc.weight (arcs ++ [e]) := by
  rw [h.total_eq, UInt64.toNat_ofNat_of_lt' he, sum_snoc]

/-- **Within the limit, a call is added** to the total and to the word of its pair. -/
theorem Holds.add_eq_ok (h : t.Holds arcs) (he : e.weight < UInt64.size)
    (hle : sumOver Arc.weight (arcs ++ [e]) ≤ maxTotalWeight) :
    ∃ t', t.add e = .ok t' ∧ t'.Holds (arcs ++ [e]) := by
  have hsum := toNat_total_add h he
  have hfit : sumOver Arc.weight (arcs ++ [e]) < UInt64.size := hle.trans_lt (by decide)
  refine ⟨⟨t.total + .ofNat e.weight, t.weights.upsert (e.source, e.target) fun old =>
    old.getD 0 + .ofNat e.weight⟩, ?_, ?_, hle, fun k => ?_⟩
  · rw [add, filter_checkedAdd, if_pos (hsum ▸ hle)]
  · exact (UInt64.toNat_add _ _).trans ((Nat.mod_eq_of_lt (hsum ▸ hfit)).trans hsum)
  · have hacc : accumulate (arcs ++ [e])
        = (accumulate arcs).add (e.source, e.target) e.weight := List.foldl_append
    rw [hacc, SortedMap.add]
    by_cases hk : k = (e.source, e.target)
    · subst hk
      have hold : ((t.weights.get? (e.source, e.target)).getD 0).toNat
          = ((accumulate arcs).get? (e.source, e.target)).getD 0 := by
        rw [← h.weights_eq]
        cases t.weights.get? (e.source, e.target) <;> rfl
      have hle' := getD_accumulate_le arcs (e.source, e.target)
      rw [SortedMap.get?_upsert_self, SortedMap.get?_upsert_self, Option.map_some,
        UInt64.toNat_add, hold, UInt64.toNat_ofNat_of_lt' he, Nat.mod_eq_of_lt]
      rw [sum_snoc] at hfit
      exact (Nat.add_le_add_right hle' _).trans_lt hfit
    · rw [SortedMap.get?_upsert_of_ne _ _ hk, SortedMap.get?_upsert_of_ne _ _ hk, h.weights_eq]

/-- **Beyond the limit, the tally stops.** -/
theorem Holds.add_eq_error (h : t.Holds arcs) (he : e.weight < UInt64.size)
    (hlt : maxTotalWeight < sumOver Arc.weight (arcs ++ [e])) :
    t.add e = .error (.weightOverflow maxTotalWeight) := by
  rw [add, filter_checkedAdd, toNat_total_add h he, if_neg (not_le.mpr hlt)]

/-! ## All calls -/

/-- Calls within the limit are all added. -/
theorem Holds.foldlM_eq_ok (h : t.Holds arcs) (hrest : ∀ e ∈ rest, e.weight < UInt64.size)
    (hle : sumOver Arc.weight (arcs ++ rest) ≤ maxTotalWeight) :
    ∃ t', rest.foldlM add t = .ok t' ∧ t'.Holds (arcs ++ rest) := by
  induction rest generalizing t arcs with
  | nil => exact ⟨t, rfl, (List.append_nil arcs).symm ▸ h⟩
  | cons e rest ih =>
    rw [List.append_cons] at hle ⊢
    have hfirst : sumOver Arc.weight (arcs ++ [e]) ≤ maxTotalWeight :=
      (Nat.le_add_right _ _).trans ((sumOver_append _ _ _).ge.trans hle)
    obtain ⟨t', ht', hholds⟩ := h.add_eq_ok (hrest e (by simp)) hfirst
    rw [List.foldlM_cons, ht']
    exact ih hholds (fun d hd => hrest d (List.mem_cons_of_mem _ hd)) hle

/-- Calls beyond the limit stop the tally, wherever the excess comes up. -/
theorem Holds.foldlM_eq_error (h : t.Holds arcs) (hrest : ∀ e ∈ rest, e.weight < UInt64.size)
    (hlt : maxTotalWeight < sumOver Arc.weight (arcs ++ rest)) :
    rest.foldlM add t = .error (.weightOverflow maxTotalWeight) := by
  induction rest generalizing t arcs with
  | nil =>
    rw [List.append_nil] at hlt
    exact absurd h.total_le (not_le.mpr hlt)
  | cons e rest ih =>
    have he := hrest e (by simp)
    rw [List.foldlM_cons]
    rcases le_or_gt (sumOver Arc.weight (arcs ++ [e])) maxTotalWeight with hle | hover
    · obtain ⟨t', ht', hholds⟩ := h.add_eq_ok he hle
      rw [ht']
      rw [List.append_cons] at hlt
      exact ih hholds (fun d hd => hrest d (List.mem_cons_of_mem _ hd)) hlt
    · rw [h.add_eq_error he hover]
      rfl

end Tally

namespace Builder

variable {b : Builder} {g : CallGraph} {error : Error}

/-- The calls between known vertices, added up in words one after the other. -/
def tally (b : Builder) : Except Error Tally :=
  b.calls.toList.foldlM (fun t call =>
    match arc? b.vertices call with
    | some e => t.add e
    | none => .ok t) .empty

theorem tally_eq_foldlM_kept (b : Builder) : b.tally = b.kept.foldlM Tally.add .empty := by
  rw [tally, kept, List.foldlM_filterMap]
  refine congrArg (fun f => List.foldlM f Tally.empty b.calls.toList) (funext₂ fun t call => ?_)
  cases arc? b.vertices call <;> rfl

/-- Whether every recorded call counts something, and no more than a word can say. -/
def FitsWords (b : Builder) : Prop :=
  ∀ call ∈ b.calls.toList, 0 < call.weight ∧ call.weight < UInt64.size

theorem FitsWords.kept (h : b.FitsWords) :
    ∀ e ∈ b.kept, 0 < e.weight ∧ e.weight < UInt64.size := by
  intro e he
  obtain ⟨call, hcall, harc⟩ := List.mem_filterMap.mp he
  rw [(arc?_eq_some_iff.mp harc).2.2]
  exact h call hcall

/-- **The tally stops when building fails.** -/
theorem tally_eq_error_iff (h : b.FitsWords) : b.tally = .error error ↔ b.build = .error error := by
  have hsmall : ∀ e ∈ b.kept, e.weight < UInt64.size := fun e he => (h.kept e he).2
  rw [tally_eq_foldlM_kept, build_eq_error_iff, totalWeight_graph]
  rcases le_or_gt (sumOver Arc.weight b.kept) maxTotalWeight with hle | hlt
  · obtain ⟨t, ht, -⟩ := Tally.holds_empty.foldlM_eq_ok hsmall hle
    rw [ht]
    exact iff_of_false (fun h => by cases h) fun h => not_le.mpr h.1 hle
  · rw [Tally.holds_empty.foldlM_eq_error hsmall hlt, Except.error.injEq, and_iff_right hlt, eq_comm]

/-- **Else its words are the weights of the graph.** -/
theorem exists_tally_eq (h : b.FitsWords) (hg : b.build = .ok g) :
    ∃ t, b.tally = .ok t ∧ t.total.toNat = g.totalWeight
      ∧ ∀ k, (t.weights.get? k).map UInt64.toNat = g.weights.get? k := by
  obtain ⟨hle, rfl⟩ := build_eq_ok_iff.mp hg
  obtain ⟨t, ht, hholds⟩ := Tally.holds_empty.foldlM_eq_ok (fun e he => (h.kept e he).2) hle
  refine ⟨t, (tally_eq_foldlM_kept b).trans ht, hholds.total_eq.trans (totalWeight_graph b).symm,
    fun k => ?_⟩
  rw [weights_graph fun e he => (h.kept e he).1]
  exact hholds.weights_eq k

end Builder

end CallCommunities
