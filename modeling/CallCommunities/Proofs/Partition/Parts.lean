import CallCommunities.Partition.Connected
import CallCommunities.Proofs.Partition.Balance

/-!
# Proofs/Partition/Parts — the connected parts of a partition

`Joined` vertices are linked by calls inside one community.  During the rounds of exchange every
vertex carries the label of a vertex it is joined to, and each round that changes anything brings
the labels closer to the front of the names (`rankSum_exchange_lt`), so `n²` rounds reach a round
that changes nothing.  **What is left is one label for each connected part, its lowest-named
vertex** (`labelOf_refine_eq_iff`, `canonical_refine`).  No calls lead from part to part inside a
community, so the score does not fall (`score_le_score_refine`).
-/

namespace CallCommunities

open Finset

namespace Assignment

variable {g : CallGraph} {a b parts : Assignment} {u v w : ℕ}

/-! ## Vertices joined inside a community -/

theorem touching_iff : Touching g.linkView a u v
    ↔ (v ≠ u ∧ 0 < g.linkWeight u v) ∧ a.labelOf u = a.labelOf v := by
  rw [Touching, CallGraph.linkView_linksOf]
  refine and_congr_left fun _ => ⟨?_, ?_⟩
  · rintro ⟨w, hw⟩
    obtain ⟨hne, hpos, rfl⟩ := CallGraph.mem_incident.mp hw
    exact ⟨hne, hpos⟩
  · rintro ⟨hne, hpos⟩
    exact ⟨_, CallGraph.mem_incident.mpr ⟨hne, hpos, rfl⟩⟩

theorem Touching.symm (h : Touching g.linkView a u v) : Touching g.linkView a v u := by
  obtain ⟨⟨hne, hpos⟩, hlabel⟩ := touching_iff.mp h
  exact touching_iff.mpr ⟨⟨hne.symm, g.linkWeight_comm u v ▸ hpos⟩, hlabel.symm⟩

theorem Touching.lt (h : Touching g.linkView a u v) : v < g.vertexCount :=
  CallGraph.lt_of_linkWeight_pos (touching_iff.mp h).1.2

theorem Joined.trans {view : LinkView} (h : Joined view a u v) (h' : Joined view a v w) :
    Joined view a u w := by
  induction h' with
  | refl => exact h
  | step _ ht ih => exact ih.step ht

theorem Joined.symm (h : Joined g.linkView a u v) : Joined g.linkView a v u := by
  induction h with
  | refl => exact .refl u
  | step _ ht ih => exact ((Joined.refl _).step ht.symm).trans ih

theorem Joined.labelOf_eq {view : LinkView} (h : Joined view a u v) :
    a.labelOf u = a.labelOf v := by
  induction h with
  | refl => rfl
  | step _ ht ih => exact ih.trans ht.2

theorem Joined.lt (h : Joined g.linkView a u v) (hu : u < g.vertexCount) : v < g.vertexCount := by
  cases h with
  | refl => exact hu
  | step _ ht => exact ht.lt

/-- A path inside a community is one inside any larger community. -/
theorem Joined.of_merges (hm : Merges a b) (hs : a.size = g.vertexCount)
    (h : Joined g.linkView a u v) : Joined g.linkView b u v := by
  induction h with
  | refl => exact .refl u
  | step _ ht ih =>
    obtain ⟨hlink, hlabel⟩ := touching_iff.mp ht
    refine ih.step (touching_iff.mpr ⟨hlink, hm.2 _ _ ?_ ?_ hlabel⟩)
    · exact hs.symm ▸ ht.symm.lt
    · exact hs.symm ▸ ht.lt

/-! ## One round of exchange -/

@[simp] theorem size_exchange (g : CallGraph) (a parts : Assignment) :
    (exchange g.linkView a parts).size = g.vertexCount := by
  rw [exchange, size_tabulate, CallGraph.linkView_size]

/-- **In a round a vertex takes the lowest-named label around it.** -/
theorem exchange_spec (hp : parts.Valid g.vertexCount) (hv : v < g.vertexCount) :
    ((exchange g.linkView a parts).labelOf v = parts.labelOf v
        ∨ ∃ u, Touching g.linkView a v u
          ∧ (exchange g.linkView a parts).labelOf v = parts.labelOf u)
      ∧ g.rank ((exchange g.linkView a parts).labelOf v) ≤ g.rank (parts.labelOf v)
      ∧ ∀ u, Touching g.linkView a v u →
        g.rank ((exchange g.linkView a parts).labelOf v) ≤ g.rank (parts.labelOf u) := by
  have hfold : (exchange g.linkView a parts).labelOf v
      = (((g.linkView.linksOf v).filter fun p => a.labelOf p.1 = a.labelOf v).map
        fun p => parts.labelOf p.1).foldl g.linkView.lowest (parts.labelOf v) := by
    rw [exchange, labelOf_tabulate _ (by rwa [CallGraph.linkView_size]), List.foldl_map]
  have hmem : ∀ c, c ∈ ((g.linkView.linksOf v).filter fun p => a.labelOf p.1 = a.labelOf v).map
      (fun p => parts.labelOf p.1) ↔ ∃ u, Touching g.linkView a v u ∧ parts.labelOf u = c := by
    intro c
    rw [List.mem_map]
    constructor
    · rintro ⟨⟨u, w⟩, hu, rfl⟩
      obtain ⟨hlink, hlabel⟩ := List.mem_filter.mp hu
      exact ⟨u, ⟨⟨w, hlink⟩, (of_decide_eq_true hlabel).symm⟩, rfl⟩
    · rintro ⟨u, ⟨⟨w, hlink⟩, hlabel⟩, rfl⟩
      exact ⟨(u, w), List.mem_filter.mpr ⟨hlink, decide_eq_true hlabel.symm⟩, rfl⟩
  rw [hfold]
  obtain ⟨hin, hmin⟩ := foldl_lowest g _ (hp.labelOf_lt hv) fun c hc => by
    obtain ⟨u, hu, rfl⟩ := (hmem c).mp hc
    exact hp.labelOf_lt hu.lt
  refine ⟨?_, hmin _ (by simp), fun u hu => ?_⟩
  · rcases List.mem_cons.mp hin with hown | hother
    · exact .inl hown
    · obtain ⟨u, hu, hlabel⟩ := (hmem _).mp hother
      exact .inr ⟨u, hu, hlabel.symm⟩
  · exact hmin _ (List.mem_cons_of_mem _ ((hmem _).mpr ⟨u, hu, rfl⟩))

/-- What the rounds keep: every vertex carries a vertex it is joined to, at least as low as
itself. -/
structure Partway (g : CallGraph) (a parts : Assignment) : Prop where
  valid : parts.Valid g.vertexCount
  joined : ∀ v < g.vertexCount, Joined g.linkView a v (parts.labelOf v)
  rank_le : ∀ v < g.vertexCount, g.rank (parts.labelOf v) ≤ g.rank v

theorem partway_singletons (g : CallGraph) (a : Assignment) :
    Partway g a (singletons g.vertexCount) where
  valid := valid_singletons _
  joined v _ := by
    rw [labelOf_singletons]
    exact .refl v
  rank_le v _ := by rw [labelOf_singletons]

theorem Partway.exchange (h : Partway g a parts) :
    Partway g a (exchange g.linkView a parts) := by
  have hjoined : ∀ v < g.vertexCount,
      Joined g.linkView a v ((Assignment.exchange g.linkView a parts).labelOf v) := by
    intro v hv
    rcases (exchange_spec (a := a) h.valid hv).1 with hown | ⟨u, hu, hlabel⟩
    · rw [hown]
      exact h.joined v hv
    · rw [hlabel]
      exact ((Joined.refl v).step hu).trans (h.joined u hu.lt)
  refine ⟨valid_of_labelOf_lt (size_exchange g a parts) fun v hv => (hjoined v hv).lt hv, hjoined,
    fun v hv => ?_⟩
  exact (exchange_spec h.valid hv).2.1.trans (h.rank_le v hv)

/-! ## The rounds come to an end -/

/-- The ranks of all labels together. -/
def rankSum (g : CallGraph) (parts : Assignment) : ℕ :=
  ∑ v ∈ g.vertexSet, g.rank (parts.labelOf v)

/-- **A round that changes anything lowers the ranks.** -/
theorem rankSum_exchange_lt (h : Partway g a parts) (hne : exchange g.linkView a parts ≠ parts) :
    rankSum g (exchange g.linkView a parts) < rankSum g parts := by
  obtain ⟨v, hv, hchange⟩ : ∃ v, v < g.vertexCount
      ∧ (exchange g.linkView a parts).labelOf v ≠ parts.labelOf v := by
    by_contra hall
    push Not at hall
    refine hne (ext_labelOf ((size_exchange g a parts).trans h.valid.1.symm) fun v hv => ?_)
    exact hall v (size_exchange g a parts ▸ hv)
  refine sum_lt_sum (fun u hu => (exchange_spec h.valid (CallGraph.mem_vertexSet.mp hu)).2.1)
    ⟨v, CallGraph.mem_vertexSet.mpr hv, lt_of_le_of_ne (exchange_spec h.valid hv).2.1 ?_⟩
  exact fun hrank => hchange (CallGraph.rank_injOn (h.exchange.valid.labelOf_lt hv)
    (h.valid.labelOf_lt hv) hrank)

/-- **As many rounds as the ranks add up to reach a round that changes nothing.** -/
theorem settle_spec : ∀ (rounds : ℕ) {parts : Assignment}, Partway g a parts →
    rankSum g parts ≤ rounds → Partway g a (settle g.linkView a rounds parts)
      ∧ exchange g.linkView a (settle g.linkView a rounds parts)
        = settle g.linkView a rounds parts
  | 0, parts, h, hsum => by
    refine ⟨h, ?_⟩
    by_contra hne
    exact absurd (rankSum_exchange_lt h hne) (by omega)
  | rounds + 1, parts, h, hsum => by
    rw [settle]
    split
    · rename_i heq
      exact ⟨h, heq⟩
    · rename_i hne
      exact settle_spec rounds h.exchange (by have := rankSum_exchange_lt h hne; omega)

theorem rankSum_singletons_le (g : CallGraph) :
    rankSum g (singletons g.vertexCount) ≤ g.vertexCount * g.vertexCount := by
  refine (sum_le_card_nsmul g.vertexSet _ g.vertexCount fun v hv => ?_).trans (le_of_eq ?_)
  · rw [labelOf_singletons]
    exact (CallGraph.rank_lt_vertexCount (CallGraph.mem_vertexSet.mp hv)).le
  · rw [CallGraph.vertexSet, card_range, nsmul_eq_mul, Nat.cast_id]

theorem refine_spec (g : CallGraph) (a : Assignment) : Partway g a (a.refine g.linkView)
    ∧ exchange g.linkView a (a.refine g.linkView) = a.refine g.linkView := by
  rw [refine, CallGraph.linkView_size]
  exact settle_spec _ (partway_singletons g a) (rankSum_singletons_le g)

/-! ## The parts -/

theorem valid_refine (g : CallGraph) (a : Assignment) :
    (a.refine g.linkView).Valid g.vertexCount := (refine_spec g a).1.valid

theorem joined_refine (a : Assignment) (hv : v < g.vertexCount) :
    Joined g.linkView a v ((a.refine g.linkView).labelOf v) := (refine_spec g a).1.joined v hv

theorem Touching.labelOf_refine_eq (h : Touching g.linkView a u v) :
    (a.refine g.linkView).labelOf u = (a.refine g.linkView).labelOf v := by
  obtain ⟨hpart, hfix⟩ := refine_spec g a
  have hle : ∀ {x y}, Touching g.linkView a x y →
      g.rank ((a.refine g.linkView).labelOf x) ≤ g.rank ((a.refine g.linkView).labelOf y) := by
    intro x y hxy
    have := (exchange_spec (a := a) hpart.valid hxy.symm.lt).2.2 y hxy
    rwa [hfix] at this
  exact CallGraph.rank_injOn (hpart.valid.labelOf_lt h.symm.lt) (hpart.valid.labelOf_lt h.lt)
    (le_antisymm (hle h) (hle h.symm))

/-- **Two vertices get one label exactly when a path inside one community joins them.** -/
theorem labelOf_refine_eq_iff (hu : u < g.vertexCount) (hv : v < g.vertexCount) :
    (a.refine g.linkView).labelOf u = (a.refine g.linkView).labelOf v
      ↔ Joined g.linkView a u v := by
  constructor
  · intro heq
    exact (heq ▸ joined_refine a hu).trans (joined_refine a hv).symm
  · intro hjoined
    induction hjoined with
    | refl => rfl
    | step hpath ht ih => exact (ih (hpath.lt hu)).trans ht.labelOf_refine_eq

/-- **The label of a part is its lowest-named vertex.** -/
theorem canonical_refine (g : CallGraph) (a : Assignment) :
    CallCommunities.Assignment.Canonical g (a.refine g.linkView) where
  valid := valid_refine g a
  labelOf_labelOf v hv := by
    have hjoined := joined_refine a hv
    exact (labelOf_refine_eq_iff (hjoined.lt hv) hv).mpr hjoined.symm
  rank_labelOf_le := (refine_spec g a).1.rank_le

/-- The parts lie inside the communities. -/
theorem merges_refine (h : a.Valid g.vertexCount) : Merges (a.refine g.linkView) a := by
  have hsize := (valid_refine g a).1
  refine ⟨hsize.trans h.1.symm, fun u v hu hv heq => ?_⟩
  exact ((labelOf_refine_eq_iff (hsize ▸ hu) (hsize ▸ hv)).mp heq).labelOf_eq

/-- **No calls lead from part to part inside a community.** -/
theorem linkWeight_eq_zero_of_parted (hsame : a.labelOf u = a.labelOf v)
    (hcut : (a.refine g.linkView).labelOf u ≠ (a.refine g.linkView).labelOf v) :
    g.linkWeight u v = 0 := by
  have hne : v ≠ u := fun heq => hcut (congrArg _ heq.symm)
  refine Nat.eq_zero_of_not_pos fun hpos => hcut ?_
  exact (touching_iff.mpr ⟨⟨hne, hpos⟩, hsame⟩).labelOf_refine_eq

/-- **Splitting communities into their connected parts never lowers the score.** -/
theorem score_le_score_refine (h : a.Valid g.vertexCount) :
    g.score a ≤ g.score (a.refine g.linkView) := by
  have hsize := (valid_refine g a).1
  refine CallGraph.score_le_score h (valid_refine g a) (fun u hu v hv heq => ?_)
    fun u hu v hv hsame hcut => CallGraph.balance_nonpos (linkWeight_eq_zero_of_parted hsame hcut)
  exact (merges_refine h).2 u v (hsize.symm ▸ hu) (hsize.symm ▸ hv) heq

end Assignment

end CallCommunities
