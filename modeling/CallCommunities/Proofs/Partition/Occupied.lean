import CallCommunities.Proofs.Partition.Gains

/-!
# Proofs/Partition/Occupied — communities are left and joined, and never founded

An identifier may name a vertex that has gone elsewhere, but a vertex only looks at the communities of
its neighbours and at its own.  So where it goes another vertex is already (`Sound.visit_joins`), and **no
visit puts an identifier to use that was not in use** (`identifiers_foldl_visit_subset`): a community that
has lost its last member stays empty.

From singletons the first move leaves the identifier of its vertex behind (`vacated_of_joins`).  Hence a
run from singletons ends with fewer communities than vertices exactly when it has moved something.
-/

namespace CallCommunities

open Assignment

/-! ## Identifiers in use -/

namespace Assignment

variable {a : Assignment} {n c u v : ℕ}

theorem Valid.mem_labels (h : a.Valid n) : c ∈ a.labels ↔ c ∈ a.identifiers := by
  have hlabels : c ∈ a.identifiers ↔ c < a.size ∧ c ∈ a.labels := by simp [identifiers]
  rw [hlabels, h.1]
  exact (and_iff_right_of_imp (h.2 c)).symm

/-- A vertex that goes where another one is puts no identifier to use. -/
theorem Valid.identifiers_relabel_subset (h : a.Valid n) (hv : v < n) (hu : u < n) :
    (a.relabel v (a.labelOf u)).identifiers ⊆ a.identifiers := by
  intro c hc
  obtain ⟨w, hw, rfl⟩ := (h.relabel hv (h.labelOf_lt hu)).mem_identifiers.mp hc
  rw [labelOf_relabel a (h.1.symm ▸ hv)]
  split
  · exact h.mem_identifiers.mpr ⟨u, hu, rfl⟩
  · exact h.mem_identifiers.mpr ⟨w, hw, rfl⟩

/-- With an identifier out of use there are fewer communities than vertices. -/
theorem Valid.communityCount_lt (h : a.Valid n) (hc : c < n) (hfree : c ∉ a.identifiers) :
    a.communityCount < n := by
  have hsub : (Finset.range n).image a.labelOf ⊆ (Finset.range n).erase c := by
    intro d hd
    obtain ⟨v, hv, rfl⟩ := Finset.mem_image.mp hd
    have hv := Finset.mem_range.mp hv
    refine Finset.mem_erase.mpr ⟨?_, Finset.mem_range.mpr (h.labelOf_lt hv)⟩
    rintro rfl
    exact hfree (h.mem_identifiers.mpr ⟨v, hv, rfl⟩)
  have hcard := Finset.card_le_card hsub
  rw [← h.communityCount_eq, Finset.card_erase_of_mem (Finset.mem_range.mpr hc),
    Finset.card_range] at hcard
  omega

end Assignment

namespace Moving

open CallGraph

variable {g : CallGraph} {s t : Moving} {v c : ℕ}

/-! ## Where a vertex goes -/

/-- `v` leaves its community and joins another vertex in another community. -/
def Joins (g : CallGraph) (s : Moving) (v : ℕ) (t : Moving) : Prop :=
  ∃ u < g.vertexCount, u ≠ v ∧ s.assignment.labelOf u ≠ s.assignment.labelOf v
    ∧ t.assignment = s.assignment.relabel v (s.assignment.labelOf u)

/-- **Who moves joins somebody.** -/
theorem Sound.visit_joins (h : s.Sound g) (hv : v < g.vertexCount) :
    Moving.visit g.linkView s v = s ∨ Joins g s v (Moving.visit g.linkView s v) := by
  refine (h.visit_cases hv).imp And.left ?_
  rintro ⟨c, hbest, hlt, hmove⟩
  have hleft : c ≠ s.assignment.labelOf v := by
    rintro rfl
    exact lt_irrefl _ hlt
  -- A community that a vertex looks at, other than its own, is that of a neighbour.
  obtain hown | ⟨u, hne, hpos, rfl⟩ := hbest.faces
  · exact absurd hown hleft
  · exact ⟨u, lt_of_linkWeight_pos hpos, hne, hleft, by rw [hmove, Moving.moved]⟩

theorem Sound.identifiers_visit_subset (h : s.Sound g) (hv : v < g.vertexCount) :
    (Moving.visit g.linkView s v).assignment.identifiers ⊆ s.assignment.identifiers := by
  obtain hstay | ⟨u, hu, -, -, hassignment⟩ := h.visit_joins hv
  · rw [hstay]
    exact List.Subset.refl _
  · rw [hassignment]
    exact h.valid.identifiers_relabel_subset hv hu

/-- **Visits put no identifier to use**, so what is empty stays empty. -/
theorem Sound.identifiers_foldl_visit_subset (h : s.Sound g) {visits : List ℕ}
    (hvisits : ∀ u ∈ visits, u < g.vertexCount) :
    (visits.foldl (Moving.visit g.linkView) s).assignment.identifiers ⊆ s.assignment.identifiers :=
  LocalMoving.foldl_visit_induction (P := fun b => b.identifiers ⊆ s.assignment.identifiers)
    (fun _ ht _ hv hsub => List.Subset.trans (ht.identifiers_visit_subset hv) hsub) h hvisits
    (List.Subset.refl _)

/-- A vertex that is alone in the community named after it leaves that name behind. -/
theorem vacated_of_joins (hs : s.assignment = singletons g.vertexCount) (hv : v < g.vertexCount)
    (h : Joins g s v t) : v ∉ t.assignment.identifiers := by
  obtain ⟨u, hu, huv, -, hassignment⟩ := h
  have hvalid := (valid_singletons g.vertexCount).relabel hv hu
  rw [hassignment, hs, labelOf_singletons, hvalid.mem_identifiers]
  rintro ⟨w, -, hw⟩
  rw [labelOf_relabel _ ((size_singletons _).symm ▸ hv), labelOf_singletons] at hw
  split at hw
  · exact huv hw
  · exact ‹w ≠ v› hw

end Moving

namespace LocalMoving

open CallGraph Moving

variable {g : CallGraph} {a : Assignment}

/-! ## Runs -/

/-- **A run uses the identifiers of its start.** -/
theorem mem_labels_of_mem_run (ha : a.Valid g.vertexCount) {c k : ℕ}
    (hc : c ∈ (run g.linkView a k).assignment.labels) : c ∈ a.labels := by
  have hsub := run_induction (P := fun b => b.identifiers ⊆ a.identifiers)
    (fun _ hs _ hv hsub => List.Subset.trans (hs.identifiers_visit_subset hv) hsub) ha
    (List.Subset.refl _) k
  exact ha.mem_labels.mpr (hsub ((run_outcome ha k).valid.mem_labels.mp hc))

/-- As long as nothing has moved from singletons they are all there; from then on one is gone. -/
theorem run_singletons (g : CallGraph) (k : ℕ) :
    (run g.linkView (singletons g.vertexCount) k).assignment = singletons g.vertexCount
      ∨ ∃ c < g.vertexCount,
        c ∉ (run g.linkView (singletons g.vertexCount) k).assignment.identifiers := by
  refine run_induction (P := fun b => b = singletons g.vertexCount
    ∨ ∃ c < g.vertexCount, c ∉ b.identifiers) (fun s hs v hv hP => ?_) (valid_singletons _) (.inl rfl) k
  obtain hstart | ⟨c, hc, hfree⟩ := hP
  · obtain hstay | hjoins := hs.visit_joins hv
    · rw [hstay]
      exact .inl hstart
    · exact .inr ⟨v, hv, vacated_of_joins hstart hv hjoins⟩
  · exact .inr ⟨c, hc, fun hused => hfree (hs.identifiers_visit_subset hv hused)⟩

/-- **From singletons the communities get fewer exactly when something moves.** -/
theorem moves_pos_iff_communityCount_lt (g : CallGraph) (k : ℕ) :
    0 < (run g.linkView (singletons g.vertexCount) k).moves
      ↔ (run g.linkView (singletons g.vertexCount) k).assignment.communityCount
        < g.vertexCount := by
  have hvalid := valid_singletons g.vertexCount
  have hout := run_outcome (g := g) hvalid k
  constructor
  · intro hmoves
    obtain hstart | ⟨c, hc, hfree⟩ := run_singletons g k
    · have hlt := score_lt_of_improved hvalid (improved_iff.mpr hmoves)
      rw [hstart] at hlt
      exact absurd hlt (lt_irrefl _)
    · exact hout.valid.communityCount_lt hc hfree
  · intro hlt
    refine Nat.pos_of_ne_zero fun hzero => hlt.ne ?_
    rw [hout.eq_of_moves_eq_zero hzero, hvalid.communityCount_eq_iff]
    intro u _ v _ huv
    rwa [labelOf_singletons, labelOf_singletons] at huv

end LocalMoving

open Moving LocalMoving

variable {g : CallGraph} {a : Assignment}

/-- **Local moving only merges into communities that are there.**  After any visits a visit either changes
nothing or lets its vertex join another one in another community, and all that is in use later was in use
before, from visit to visit and over any number of them.  A run is the visits of its sweeps, so all its
labels are labels of the partition it started from; and from singletons it ends with fewer communities
than vertices exactly when it has made a move. -/
theorem communities_never_founded (ha : a.Valid g.vertexCount) :
    (∀ visits : List ℕ, (∀ u ∈ visits, u < g.vertexCount) →
      let s := visits.foldl (visit g.linkView) (start g.linkView a)
      (∀ v < g.vertexCount, let t := visit g.linkView s v
        (t = s ∨ Joins g s v t) ∧ t.assignment.identifiers ⊆ s.assignment.identifiers)
      ∧ ∀ more : List ℕ, (∀ u ∈ more, u < g.vertexCount) →
        (more.foldl (visit g.linkView) s).assignment.identifiers ⊆ s.assignment.identifiers)
    ∧ (∀ k, let r := run g.linkView a k
      VisitedFrom g.linkView (start g.linkView a) r ∧ ∀ c ∈ r.assignment.labels, c ∈ a.labels)
    ∧ ∀ k, let r := run g.linkView (singletons g.vertexCount) k
      0 < r.moves ↔ r.assignment.communityCount < g.vertexCount := by
  refine ⟨fun visits hvisits => ?_, fun k => ⟨visitedFrom_run _ a k, fun c => mem_labels_of_mem_run ha⟩,
    moves_pos_iff_communityCount_lt g⟩
  have hs := ((sound_start ha).foldl_visit hvisits).1
  refine ⟨fun v hv => ⟨hs.visit_joins hv, hs.identifiers_visit_subset hv⟩, fun more hmore => ?_⟩
  exact hs.identifiers_foldl_visit_subset hmore

open CallGraph in
/-- The third vertex leaves the community `0` empty for good, though it is called after the first. -/
theorem communities_never_founded_tadpole :
    Assignment.Valid tadpole.vertexCount ⟨#[3, 3, 0, 2]⟩
    ∧ Joins tadpole ([0, 1].foldl (visit tadpole.linkView) (start tadpole.linkView ⟨#[3, 3, 0, 2]⟩)) 2
      ([0, 1, 2].foldl (visit tadpole.linkView) (start tadpole.linkView ⟨#[3, 3, 0, 2]⟩))
    ∧ 0 ∈ ([0, 1].foldl (visit tadpole.linkView)
      (start tadpole.linkView ⟨#[3, 3, 0, 2]⟩)).assignment.identifiers
    ∧ 0 ∉ ([3, 0, 1].foldl (visit tadpole.linkView) ([0, 1, 2].foldl (visit tadpole.linkView)
      (start tadpole.linkView ⟨#[3, 3, 0, 2]⟩))).assignment.identifiers
    ∧ (∀ c ∈ (run tadpole.linkView ⟨#[3, 3, 0, 2]⟩ 100).assignment.labels, c ∈ #[3, 3, 0, 2])
    ∧ (run tadpole.linkView (singletons tadpole.vertexCount) 100).moves = 2
    ∧ (run tadpole.linkView (singletons tadpole.vertexCount) 100).assignment.communityCount < 4 := by
  have hvalid : Assignment.Valid tadpole.vertexCount ⟨#[3, 3, 0, 2]⟩ := ⟨rfl, by decide +kernel⟩
  have hmoves : (run tadpole.linkView (singletons tadpole.vertexCount) 100).moves = 2 := by
    decide +kernel
  obtain ⟨hvisits, hruns, hsingletons⟩ := communities_never_founded hvalid
  obtain ⟨hnext, -⟩ := hvisits [0, 1] (by decide +kernel)
  obtain ⟨-, hlater⟩ := hvisits [0, 1, 2] (by decide +kernel)
  refine ⟨hvalid, ?_, by decide +kernel, fun hused => ?_, (hruns 100).2, hmoves, ?_⟩
  · exact (hnext 2 (by decide +kernel)).1.resolve_left fun hidle => absurd hidle (by decide +kernel)
  · exact absurd (hlater [3, 0, 1] (by decide +kernel) hused) (by decide +kernel)
  · exact (hsingletons 100).mp (hmoves ▸ by decide)

end CallCommunities
