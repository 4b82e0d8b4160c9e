import CallCommunities.Proofs.Partition.Gains
import CallCommunities.Proofs.Partition.Plain

/-!
# Proofs/Partition/Listings — the order in which neighbours are listed

The neighbours of a vertex show its communities in some order, and every community is counted in pieces.
Another order gives the same communities with the same weights (`Lists.contacts_perm`), the best of them
does not depend on where it stands since no two have names of equal rank (`prefer_right_comm`), and so
**local moving does not see the order** (`Lists.run_eq`).
-/

namespace CallCommunities

open CallGraph Assignment

/-- A view of the graph `g` that lists the neighbours of each vertex in any order. -/
structure LinkView.Lists (view : LinkView) (g : CallGraph) : Prop where
  total_eq : view.total = g.linkView.total
  ranks_eq : view.ranks = g.linkView.ranks
  degrees_eq : view.degrees = g.linkView.degrees
  linksOf_perm : ∀ v, (view.linksOf v).Perm (g.linkView.linksOf v)

/-- The view with every list of neighbours turned round. -/
def LinkView.reversed (view : LinkView) : LinkView :=
  { view with links := view.links.map List.reverse }

theorem lists_reversed (g : CallGraph) : g.linkView.reversed.Lists g where
  total_eq := rfl
  ranks_eq := rfl
  degrees_eq := rfl
  linksOf_perm v := by
    rw [LinkView.linksOf, LinkView.linksOf, LinkView.reversed, Array.getD_eq_getD_getElem?,
      Array.getD_eq_getD_getElem?, Array.getElem?_map]
    cases g.linkView.links[v]? with
    | none => exact .rfl
    | some l => exact l.reverse_perm

namespace Moving

variable {view : LinkView} {c w : ℕ}

/-! ## Lists with keys -/

theorem mem_iff_recorded {l : List (ℕ × ℕ)} (h : (l.map (·.1)).Nodup) :
    (c, w) ∈ l ↔ c ∈ l.map (·.1) ∧ recorded l c = w := by
  rw [← lookup_eq_some_iff_mem h, recorded]
  constructor
  · intro hw
    refine ⟨List.mem_map.mpr ⟨_, (lookup_eq_some_iff_mem h).mp hw, rfl⟩, ?_⟩
    rw [hw, Option.getD_some]
  · rintro ⟨hc, rfl⟩
    obtain ⟨⟨_, x⟩, hx, rfl⟩ := List.mem_map.mp hc
    rw [(lookup_eq_some_iff_mem h).mpr hx, Option.getD_some]

theorem lookup_eq_of_perm {β : Type} {l l' : List (ℕ × β)} (hperm : l.Perm l')
    (h : (l.map (·.1)).Nodup) : l.lookup c = l'.lookup c := by
  have h' : (l'.map (·.1)).Nodup := (hperm.map _).nodup_iff.mp h
  refine Option.ext fun y => ?_
  rw [lookup_eq_some_iff_mem h, lookup_eq_some_iff_mem h', hperm.mem_iff]

/-- Which of two offers is met first does not matter, if only equal communities have equal ranks. -/
theorem prefer_right_comm (p : ℕ × ℤ) {x y : ℕ × ℤ} (h : view.rank x.1 = view.rank y.1 → x.1 = y.1) :
    prefer view (prefer view p x) y = prefer view (prefer view p y) x := by
  by_cases heq : x = y
  · rw [heq]
  have hdiff : x.2 = y.2 → view.rank x.1 ≠ view.rank y.1 := fun h2 h1 => heq (Prod.ext (h h1) h2)
  unfold prefer
  split_ifs <;> first | rfl | omega

theorem nodup_contacts (view : LinkView) (a : Assignment) (v : ℕ) :
    ((contacts view a v).map (·.1)).Nodup :=
  (foldl_tally a.labelOf 0 (view.linksOf v) [(a.labelOf v, 0)] (List.nodup_singleton _)).1

theorem nodup_appraisals (view : LinkView) (s : Moving) (v : ℕ) :
    ((s.appraisals view v).map (·.1)).Nodup := by
  rw [appraisals, List.map_map]
  exact nodup_contacts view s.assignment v

end Moving

namespace LinkView.Lists

open Moving

variable {view : LinkView} {g : CallGraph} (h : view.Lists g)
include h

/-! ## Any order gives the same visit -/

theorem degree_eq : view.degree = g.linkView.degree := by
  unfold LinkView.degree
  rw [h.degrees_eq]

theorem rank_eq : view.rank = g.linkView.rank := by
  unfold LinkView.rank
  rw [h.ranks_eq]

theorem vertexList_eq : view.vertexList = g.vertexList := by
  rw [← linkView_vertexList, LinkView.vertexList, LinkView.vertexList, LinkView.size, LinkView.size,
    h.degrees_eq]

theorem worth_eq : worth view = worth g.linkView := by
  unfold worth
  rw [h.total_eq]

theorem prefer_eq : prefer view = prefer g.linkView := by
  unfold prefer
  rw [h.rank_eq]

theorem start_eq (a : Assignment) : start view a = start g.linkView a := by
  rw [start, start, h.degree_eq]

/-- **Another order shows the same communities with the same weights.** -/
theorem contacts_perm (a : Assignment) (v : ℕ) :
    (contacts view a v).Perm (contacts g.linkView a v) := by
  have hperm := h.linksOf_perm v
  have hkeys := nodup_contacts view a v
  have hkeys' := nodup_contacts g.linkView a v
  refine (List.perm_ext_iff_of_nodup (hkeys.of_map _) (hkeys'.of_map _)).mpr fun ⟨c, w⟩ => ?_
  obtain ⟨-, hmem, hrec⟩ := foldl_tally a.labelOf c (view.linksOf v) [(a.labelOf v, 0)]
    (List.nodup_singleton _)
  obtain ⟨-, hmem', hrec'⟩ := foldl_tally a.labelOf c (g.linkView.linksOf v) [(a.labelOf v, 0)]
    (List.nodup_singleton _)
  have hfaced : (∃ p ∈ view.linksOf v, a.labelOf p.1 = c)
      ↔ ∃ p ∈ g.linkView.linksOf v, a.labelOf p.1 = c := by simp only [hperm.mem_iff]
  rw [mem_iff_recorded hkeys, mem_iff_recorded hkeys', contacts, contacts, hmem, hmem', hrec, hrec',
    hfaced, (hperm.map _).sum_eq]

theorem appraisals_perm (s : Moving) (v : ℕ) :
    (s.appraisals view v).Perm (s.appraisals g.linkView v) := by
  rw [appraisals, appraisals, h.degree_eq, h.worth_eq]
  exact (h.contacts_perm s.assignment v).map _

theorem stay_eq (s : Moving) (v : ℕ) : s.stay view v = s.stay g.linkView v := by
  rw [stay, stay, lookup_eq_of_perm (h.appraisals_perm s v)]
  exact nodup_appraisals view s v

theorem best_eq {s : Moving} {v : ℕ} (hs : s.Sound g) (hv : v < g.vertexCount) :
    s.best view v = s.best g.linkView v := by
  rw [best, best, h.stay_eq, h.prefer_eq]
  refine List.Perm.foldl_eq' (h.appraisals_perm s v) (fun x hx y hy p => ?_) _
  have hlt : ∀ z ∈ s.appraisals view v, z.1 < g.vertexCount := by
    intro z hz
    have hz := (h.appraisals_perm s v).mem_iff.mp hz
    rw [hs.appraisals_eq hv] at hz
    obtain ⟨c, hc, rfl⟩ := mem_offers.mp hz
    exact hc.lt hs.valid hv
  refine prefer_right_comm p fun hrank => ?_
  rw [linkView_rank (hlt x hx), linkView_rank (hlt y hy)] at hrank
  exact rank_injOn (hlt x hx) (hlt y hy) hrank

/-- **Any order gives the same visit.** -/
theorem visit_eq {s : Moving} {v : ℕ} (hs : s.Sound g) (hv : v < g.vertexCount) :
    visit view s v = visit g.linkView s v := by
  rw [visit_eq_best, visit_eq_best, h.stay_eq, h.best_eq hs hv, h.degree_eq]

theorem inStep : Machine.InStep (.moving view) (.moving g.linkView) g.vertexList
    fun s t => s.Sound g ∧ s = t where
  assignment_eq hst := hst.2 ▸ rfl
  moves_eq hst := hst.2 ▸ rfl
  gain_eq hst := hst.2 ▸ rfl
  visit := by
    rintro s _ v ⟨hs, rfl⟩ hv
    have hv := List.mem_range.mp hv
    have heq := h.visit_eq hs hv
    have hsound := (hs.visit hv).1
    rw [← heq] at hsound
    exact ⟨hsound, heq⟩

/-- **Local moving does not see the order in which neighbours are listed.** -/
theorem run_eq {a : Assignment} (ha : a.Valid g.vertexCount) (k : ℕ) :
    LocalMoving.run view a k = LocalMoving.run g.linkView a k := by
  rw [← Machine.run_moving, ← Machine.run_moving, h.vertexList_eq, linkView_vertexList, h.total_eq,
    h.start_eq]
  exact h.inStep.run_eq ⟨sound_start ha, rfl⟩ _ k

end LinkView.Lists

end CallCommunities
