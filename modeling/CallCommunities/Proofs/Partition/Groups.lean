import CallCommunities.Partition.Assignment
import CallCommunities.Proofs.Graph.Names

/-!
# Proofs/Partition/Groups — labels, the groups they make, and canonical labels

An assignment is its labels below `size` (`ext_labelOf`).  Its labels are arbitrary names of its
groups; a **canonical** assignment labels every group by its lowest-named member, and is determined
by its groups (`Canonical.ext_sameGroups`).  `canonicalize` reaches the canonical assignment of the
same groups (`canonical_canonicalize`, `sameGroups_canonicalize`).
-/

namespace CallCommunities

open Finset

namespace Assignment

variable {a b : Assignment} {n u v w c : ℕ} {g : CallGraph}

/-! ## Labels -/

theorem labelOf_eq_getElem (hv : v < a.labels.size) : a.labelOf v = a.labels[v] := by
  rw [labelOf, Array.getD_eq_getD_getElem?, Array.getElem?_eq_getElem hv]
  rfl

/-- **An assignment is its labels.** -/
theorem ext_labelOf (hs : a.size = b.size) (h : ∀ v < a.size, a.labelOf v = b.labelOf v) :
    a = b := by
  have hlabels : a.labels = b.labels := by
    refine Array.ext hs fun v hv hv' => ?_
    have := h v hv
    rwa [labelOf_eq_getElem hv, labelOf_eq_getElem hv'] at this
  cases a; cases b; cases hlabels; rfl

@[simp] theorem size_tabulate (n : ℕ) (f : ℕ → ℕ) : (tabulate n f).size = n := by
  simp [tabulate, size]

theorem labelOf_tabulate (f : ℕ → ℕ) (hv : v < n) : (tabulate n f).labelOf v = f v :=
  getD_tabulated f v hv

@[simp] theorem size_singletons (n : ℕ) : (singletons n).size = n := size_tabulate n id

@[simp] theorem labelOf_singletons (n v : ℕ) : (singletons n).labelOf v = v := by
  rcases lt_or_ge v n with hv | hv
  · exact labelOf_tabulate id hv
  · exact getD_tabulated_of_le id v hv

@[simp] theorem size_relabel (a : Assignment) (v c : ℕ) : (a.relabel v c).size = a.size := by
  simp [relabel, size]

theorem labelOf_relabel (a : Assignment) (hv : v < a.size) (u c : ℕ) :
    (a.relabel v c).labelOf u = if u = v then c else a.labelOf u := by
  have hv' : v < a.labels.size := hv
  by_cases hu : u = v
  · subst hu
    simp [labelOf, relabel, Array.getD_eq_getD_getElem?, hv']
  · simp [labelOf, relabel, Array.getD_eq_getD_getElem?, hu,
      Array.getElem?_setIfInBounds_ne (Ne.symm hu)]

/-! ## Valid assignments -/

theorem Valid.labelOf_lt (h : a.Valid n) (hv : v < n) : a.labelOf v < n := by
  have hs : v < a.size := by rw [h.1]; exact hv
  rw [labelOf_eq_getElem hs]
  exact h.2 _ (Array.getElem_mem _)

theorem valid_of_labelOf_lt (hs : a.size = n) (h : ∀ v < n, a.labelOf v < n) : a.Valid n := by
  refine ⟨hs, fun c hc => ?_⟩
  obtain ⟨v, hv, rfl⟩ := Array.getElem_of_mem hc
  have := h v (hs ▸ hv)
  rwa [labelOf_eq_getElem hv] at this

theorem valid_tabulate {f : ℕ → ℕ} (h : ∀ v < n, f v < n) : (tabulate n f).Valid n :=
  valid_of_labelOf_lt (size_tabulate n f) fun v hv => by
    rw [labelOf_tabulate f hv]
    exact h v hv

theorem valid_singletons (n : ℕ) : (singletons n).Valid n := valid_tabulate fun _ hv => hv

theorem Valid.relabel (h : a.Valid n) (hv : v < n) (hc : c < n) : (a.relabel v c).Valid n := by
  refine valid_of_labelOf_lt ((size_relabel a v c).trans h.1) fun u hu => ?_
  rw [labelOf_relabel a (h.1.symm ▸ hv)]
  split
  · exact hc
  · exact h.labelOf_lt hu

/-! ## Members -/

theorem mem_members : v ∈ a.members c ↔ v < a.size ∧ a.labelOf v = c := by
  simp [members]

theorem degreeSum_eq_sum (a : Assignment) (f : ℕ → ℕ) (c : ℕ) :
    a.degreeSum f c = ∑ v ∈ range a.size with a.labelOf v = c, f v := by
  rw [degreeSum, members, sumOver_filter, sumOver_eq_sum_map, sum_map_range, sum_filter]

/-- **The communities are the labels in use.** -/
theorem Valid.mem_identifiers (h : a.Valid n) :
    c ∈ a.identifiers ↔ ∃ v, v < n ∧ a.labelOf v = c := by
  have hlabels : c ∈ a.identifiers ↔ c < a.size ∧ c ∈ a.labels := by simp [identifiers]
  rw [hlabels]
  constructor
  · rintro ⟨-, hc⟩
    obtain ⟨v, hv, rfl⟩ := Array.getElem_of_mem hc
    exact ⟨v, h.1 ▸ hv, labelOf_eq_getElem hv⟩
  · rintro ⟨v, hv, rfl⟩
    have hv' : v < a.size := h.1.symm ▸ hv
    exact ⟨h.1.symm ▸ h.labelOf_lt hv, labelOf_eq_getElem hv' ▸ Array.getElem_mem _⟩

theorem Valid.communityCount_eq (h : a.Valid n) :
    a.communityCount = ((range n).image a.labelOf).card := by
  have hnodup : a.identifiers.Nodup := List.nodup_range.filter _
  rw [communityCount, ← List.toFinset_card_of_nodup hnodup]
  refine congrArg card ?_
  ext c
  rw [List.mem_toFinset, h.mem_identifiers, mem_image]
  simp only [mem_range]

theorem Valid.communityCount_le (h : a.Valid n) : a.communityCount ≤ n := by
  rw [h.communityCount_eq]
  exact card_image_le.trans (card_range n).le

/-- There are as many communities as vertices only when no two vertices share one. -/
theorem Valid.communityCount_eq_iff (h : a.Valid n) :
    a.communityCount = n ↔ ∀ u < n, ∀ v < n, a.labelOf u = a.labelOf v → u = v := by
  rw [h.communityCount_eq]
  have hcard : ((range n).image a.labelOf).card = n
      ↔ ((range n).image a.labelOf).card = (range n).card := by rw [card_range]
  rw [hcard, card_image_iff]
  constructor
  · exact fun hinj u hu v hv => hinj (by simpa using hu) (by simpa using hv)
  · exact fun hinj u hu v hv => hinj u (by simpa using hu) v (by simpa using hv)

/-! ## Groups -/

theorem SameGroups.refl (a : Assignment) : SameGroups a a := ⟨rfl, fun _ _ _ _ => Iff.rfl⟩

theorem SameGroups.symm (h : SameGroups a b) : SameGroups b a :=
  ⟨h.1.symm, fun v w hv hw => (h.2 v w (h.1 ▸ hv) (h.1 ▸ hw)).symm⟩

theorem SameGroups.trans {c : Assignment} (h : SameGroups a b) (h' : SameGroups b c) :
    SameGroups a c :=
  ⟨h.1.trans h'.1, fun v w hv hw => (h.2 v w hv hw).trans (h'.2 v w (h.1 ▸ hv) (h.1 ▸ hw))⟩

/-- Whether `b` keeps together whatever `a` puts together. -/
def Merges (a b : Assignment) : Prop :=
  a.size = b.size ∧ ∀ v w, v < a.size → w < a.size → a.labelOf v = a.labelOf w →
    b.labelOf v = b.labelOf w

theorem SameGroups.merges (h : SameGroups a b) : Merges a b :=
  ⟨h.1, fun v w hv hw => (h.2 v w hv hw).mp⟩

theorem Merges.trans {c : Assignment} (h : Merges a b) (h' : Merges b c) : Merges a c :=
  ⟨h.1.trans h'.1, fun v w hv hw e => h'.2 v w (h.1 ▸ hv) (h.1 ▸ hw) (h.2 v w hv hw e)⟩

/-- The partition with the community `d` merged into the community `c`. -/
def merge (a : Assignment) (c d : ℕ) : Assignment :=
  .tabulate a.size fun v => if a.labelOf v = d then c else a.labelOf v

theorem labelOf_merge (hv : v < a.size) (c d : ℕ) :
    (a.merge c d).labelOf v = if a.labelOf v = d then c else a.labelOf v := labelOf_tabulate _ hv

theorem Valid.merge (h : a.Valid n) (hc : c < n) (d : ℕ) : (a.merge c d).Valid n := by
  rw [Assignment.merge, h.1]
  refine valid_tabulate fun v hv => ?_
  split
  · exact hc
  · exact h.labelOf_lt hv

/-! ## Canonical labels -/

/-- Every community is labelled by its lowest-named member. -/
structure Canonical (g : CallGraph) (a : Assignment) : Prop where
  valid : a.Valid g.vertexCount
  labelOf_labelOf : ∀ v < g.vertexCount, a.labelOf (a.labelOf v) = a.labelOf v
  rank_labelOf_le : ∀ v < g.vertexCount, g.rank (a.labelOf v) ≤ g.rank v

theorem canonical_singletons (g : CallGraph) : Canonical g (singletons g.vertexCount) where
  valid := valid_singletons _
  labelOf_labelOf v _ := by simp
  rank_labelOf_le v _ := by simp

theorem Canonical.rank_labelOf_le_of_sameGroups (ha : Canonical g a) (hb : Canonical g b)
    (h : SameGroups a b) (hv : v < g.vertexCount) :
    g.rank (a.labelOf v) ≤ g.rank (b.labelOf v) := by
  have hbv := hb.valid.labelOf_lt hv
  have hsame : a.labelOf (b.labelOf v) = a.labelOf v :=
    (h.2 _ _ (ha.valid.1.symm ▸ hbv) (ha.valid.1.symm ▸ hv)).mpr (hb.labelOf_labelOf v hv)
  rw [← hsame]
  exact ha.rank_labelOf_le _ hbv

/-- **A canonical assignment is determined by its groups.** -/
theorem Canonical.ext_sameGroups (ha : Canonical g a) (hb : Canonical g b) (h : SameGroups a b) :
    a = b := by
  refine ext_labelOf h.1 fun v hv => ?_
  have hv : v < g.vertexCount := ha.valid.1 ▸ hv
  refine CallGraph.rank_injOn (ha.valid.labelOf_lt hv) (hb.valid.labelOf_lt hv) (le_antisymm ?_ ?_)
  · exact ha.rank_labelOf_le_of_sameGroups hb h hv
  · exact hb.rank_labelOf_le_of_sameGroups ha h.symm hv

/-- The lowest vertex of a list is one of them, and none of them comes before it. -/
theorem foldl_lowest (g : CallGraph) : ∀ (l : List ℕ) {r : ℕ}, r < g.vertexCount →
    (∀ v ∈ l, v < g.vertexCount) →
    l.foldl g.linkView.lowest r ∈ r :: l
      ∧ ∀ v ∈ r :: l, g.rank (l.foldl g.linkView.lowest r) ≤ g.rank v
  | [], r, _, _ => by simp
  | v :: l, r, hr, hl => by
    have hv : v < g.vertexCount := hl v (by simp)
    obtain ⟨hlow, hle⟩ : g.linkView.lowest r v ∈ [r, v]
        ∧ ∀ x ∈ [r, v], g.rank (g.linkView.lowest r v) ≤ g.rank x := by
      rw [CallGraph.lowest_eq hr hv]
      split <;> simp <;> omega
    have hlt : g.linkView.lowest r v < g.vertexCount := by
      rcases List.mem_pair.mp hlow with h | h <;> rw [h] <;> assumption
    obtain ⟨hmem, hmin⟩ := foldl_lowest g l hlt fun x hx => hl x (List.mem_cons_of_mem _ hx)
    rw [List.foldl_cons]
    refine ⟨?_, fun x hx => ?_⟩
    · rcases List.mem_cons.mp hmem with h | h
      · rw [h]
        exact List.mem_cons.mpr ((List.mem_pair.mp hlow).imp_right fun h => by simp [h])
      · exact List.mem_cons_of_mem _ (List.mem_cons_of_mem _ h)
    · rcases List.mem_cons.mp hx with rfl | hx
      · exact (hmin _ (by simp)).trans (hle _ (by simp))
      · rcases List.mem_cons.mp hx with rfl | hx
        · exact (hmin _ (by simp)).trans (hle _ (by simp))
        · exact hmin x (List.mem_cons_of_mem _ hx)

/-- **The representative of a community is its lowest-named member.** -/
theorem representative_spec (hs : a.size = g.vertexCount) (hv : v < g.vertexCount)
    (hc : a.labelOf v = c) :
    (a.representative g.linkView c < g.vertexCount
      ∧ a.labelOf (a.representative g.linkView c) = c)
      ∧ g.rank (a.representative g.linkView c) ≤ g.rank v := by
  have hmem : v ∈ a.members c := mem_members.mpr ⟨hs.symm ▸ hv, hc⟩
  have hlt : ∀ x ∈ a.members c, x < g.vertexCount := fun x hx => hs ▸ (mem_members.mp hx).1
  unfold representative
  cases hm : a.members c with
  | nil => simp [hm] at hmem
  | cons r rest =>
    rw [hm] at hmem hlt
    obtain ⟨hin, hmin⟩ := foldl_lowest g rest (hlt r (by simp)) fun x hx =>
      hlt x (List.mem_cons_of_mem _ hx)
    have := mem_members.mp (hm ▸ hin)
    exact ⟨⟨hs ▸ this.1, this.2⟩, hmin v hmem⟩

@[simp] theorem size_canonicalize (view : LinkView) (a : Assignment) :
    (a.canonicalize view).size = a.size := by
  simp [canonicalize, size]

theorem labelOf_canonicalize (view : LinkView) (hv : v < a.size) :
    (a.canonicalize view).labelOf v = a.representative view (a.labelOf v) := by
  have hv' : v < (a.canonicalize view).size := by rwa [size_canonicalize]
  rw [labelOf_eq_getElem hv', labelOf_eq_getElem hv]
  exact Array.getElem_map ..

theorem sameGroups_canonicalize (hs : a.size = g.vertexCount) :
    SameGroups a (a.canonicalize g.linkView) := by
  refine ⟨(size_canonicalize _ _).symm, fun v w hv hw => ?_⟩
  rw [labelOf_canonicalize _ hv, labelOf_canonicalize _ hw]
  refine ⟨congrArg _, fun h => ?_⟩
  have hlv := (representative_spec hs (hs ▸ hv) rfl).1.2
  rwa [h, (representative_spec hs (hs ▸ hw) rfl).1.2, eq_comm] at hlv

theorem canonical_canonicalize (hs : a.size = g.vertexCount) :
    Canonical g (a.canonicalize g.linkView) := by
  have hrep : ∀ v < g.vertexCount, (a.canonicalize g.linkView).labelOf v
      = a.representative g.linkView (a.labelOf v) := fun v hv =>
    labelOf_canonicalize _ (hs.symm ▸ hv)
  refine ⟨valid_of_labelOf_lt ((size_canonicalize _ _).trans hs) fun v hv => ?_,
    fun v hv => ?_, fun v hv => ?_⟩
  · rw [hrep v hv]
    exact (representative_spec hs hv rfl).1.1
  · obtain ⟨⟨hlt, hlabel⟩, -⟩ := representative_spec hs hv (rfl : a.labelOf v = a.labelOf v)
    rw [hrep v hv, hrep _ hlt, hlabel]
  · rw [hrep v hv]
    exact (representative_spec hs hv rfl).2

/-- **Whatever its labels, a partition has one canonical form.** -/
theorem canonicalize_eq_of_sameGroups (hb : Canonical g b) (h : SameGroups a b) :
    a.canonicalize g.linkView = b := by
  have hs : a.size = g.vertexCount := h.1.trans hb.valid.1
  exact (canonical_canonicalize hs).ext_sameGroups hb ((sameGroups_canonicalize hs).symm.trans h)

end Assignment

end CallCommunities
