import CallCommunities.Partition.LocalMoving
import CallCommunities.Proofs.Partition.Balance

/-!
# Proofs/Partition/Visit — what the visit of one vertex does

The visit works on tables kept from move to move; here they are read back as sums over the current
labels.  The weight counted for a community is `reach`, the degree sum without the vertex is
`otherDegrees`, and what a community is worth is exactly its `pull` (`worth_eq_pull`).  So a visit
either finds nothing better than staying and changes nothing, or moves the vertex to the community
of the greatest pull, the lowest-named one among equals (`visit_cases`).
-/

namespace CallCommunities

open Finset Assignment

namespace CallGraph

variable {g : CallGraph} {a : Assignment} {u v c d : ℕ}

/-! ## What a community offers -/

/-- The weight between `v` and the other members of the community `c`. -/
def reach (g : CallGraph) (a : Assignment) (v c : ℕ) : ℕ :=
  ∑ u ∈ g.vertexSet.erase v, if a.labelOf u = c then g.linkWeight v u else 0

/-- The degrees of the members of the community `c` other than `v`. -/
def otherDegrees (g : CallGraph) (a : Assignment) (v c : ℕ) : ℕ :=
  ∑ u ∈ g.vertexSet.erase v, if a.labelOf u = c then g.degree u else 0

theorem pull_eq (g : CallGraph) (a : Assignment) (v c : ℕ) :
    g.pull a v c = 2 * g.totalWeight * g.reach a v c - g.degree v * g.otherDegrees a v c := by
  rw [pull, reach, otherDegrees, Nat.cast_sum, Nat.cast_sum, mul_sum, mul_sum, ← sum_sub_distrib]
  refine sum_congr rfl fun u _ => ?_
  split <;> simp [balance]

theorem worth_eq_pull (g : CallGraph) (a : Assignment) (v c : ℕ) :
    Moving.worth g.linkView (g.degree v) (g.reach a v c) (g.otherDegrees a v c) = g.pull a v c :=
  (pull_eq g a v c).symm

/-- The degree sum of a community, with one vertex apart. -/
theorem degreeSum_eq (h : a.Valid g.vertexCount) (hv : v < g.vertexCount) (c : ℕ) :
    a.degreeSum g.degree c
      = g.otherDegrees a v c + if a.labelOf v = c then g.degree v else 0 := by
  rw [degreeSum_eq_sum, h.1, sum_filter, otherDegrees]
  exact (sum_erase_add _ _ (mem_vertexSet.mpr hv)).symm

theorem otherDegrees_relabel (hv : v < a.size) :
    g.otherDegrees (a.relabel v c) v d = g.otherDegrees a v d := by
  refine sum_congr rfl fun u hu => ?_
  rw [labelOf_relabel a hv, if_neg (ne_of_mem_erase hu)]

/-- Whether `v` looks at the community `c`: its own, or that of a neighbour. -/
def Faces (g : CallGraph) (a : Assignment) (v c : ℕ) : Prop :=
  c = a.labelOf v ∨ ∃ u, u ≠ v ∧ 0 < g.linkWeight v u ∧ a.labelOf u = c

theorem Faces.lt (h : g.Faces a v c) (ha : a.Valid g.vertexCount) (hv : v < g.vertexCount) :
    c < g.vertexCount := by
  rcases h with rfl | ⟨u, -, hpos, rfl⟩
  · exact ha.labelOf_lt hv
  · exact ha.labelOf_lt (lt_of_linkWeight_pos hpos)

end CallGraph

namespace Moving

open CallGraph

variable {g : CallGraph} {a : Assignment} {s : Moving} {u v c d w : ℕ}

/-! ## The contacts of a vertex -/

theorem map_fst_tally (c w : ℕ) : ∀ l : List (ℕ × ℕ),
    (tally c w l).map (·.1) = if c ∈ l.map (·.1) then l.map (·.1) else l.map (·.1) ++ [c]
  | [] => rfl
  | (d, x) :: rest => by
    unfold tally
    by_cases hd : d = c
    · simp [hd]
    · have hcd : c ≠ d := Ne.symm hd
      rw [if_neg hd, List.map_cons, map_fst_tally c w rest, List.map_cons]
      by_cases hc : c ∈ rest.map (·.1)
      · rw [if_pos hc, if_pos (List.mem_cons_of_mem _ hc)]
      · rw [if_neg hc, if_neg fun h => (List.mem_cons.mp h).elim hcd hc]
        rfl

theorem nodup_tally {l : List (ℕ × ℕ)} (h : (l.map (·.1)).Nodup) :
    ((tally c w l).map (·.1)).Nodup := by
  rw [map_fst_tally]
  split
  · exact h
  · rename_i hc
    exact List.nodup_append.mpr ⟨h, List.nodup_singleton c, fun x hx y hy => by
      rintro rfl
      exact hc (List.mem_singleton.mp hy ▸ hx)⟩

theorem recorded_tally (c w d : ℕ) : ∀ l : List (ℕ × ℕ),
    recorded (tally c w l) d = recorded l d + if c = d then w else 0
  | [] => by
    by_cases hd : c = d
    · simp [tally, recorded, hd]
    · simp [tally, recorded, hd, List.lookup_cons, beq_false_of_ne (Ne.symm hd)]
  | (e, x) :: rest => by
    have ih := recorded_tally c w d rest
    unfold recorded at ih
    unfold tally recorded
    by_cases hec : e = c
    · subst hec
      by_cases hd : d = e
      · simp [hd]
      · simp [List.lookup_cons, beq_false_of_ne hd, Ne.symm hd]
    · by_cases hd : d = e
      · subst hd
        simp [hec, Ne.symm hec]
      · simp [hec, List.lookup_cons, beq_false_of_ne hd, ih]

theorem foldl_tally (f : ℕ → ℕ) (d : ℕ) : ∀ (links l : List (ℕ × ℕ)), (l.map (·.1)).Nodup →
    ((links.foldl (fun near p => tally (f p.1) p.2 near) l).map (·.1)).Nodup
      ∧ (d ∈ (links.foldl (fun near p => tally (f p.1) p.2 near) l).map (·.1)
          ↔ d ∈ l.map (·.1) ∨ ∃ p ∈ links, f p.1 = d)
      ∧ recorded (links.foldl (fun near p => tally (f p.1) p.2 near) l) d
          = recorded l d + (links.map fun p => if f p.1 = d then p.2 else 0).sum
  | [], l, h => by simp [h]
  | p :: links, l, h => by
    obtain ⟨hnodup, hmem, hrec⟩ := foldl_tally f d links (tally (f p.1) p.2 l) (nodup_tally h)
    refine ⟨hnodup, hmem.trans ?_, hrec.trans ?_⟩
    · rw [map_fst_tally]
      split
      · rename_i hp
        constructor
        · rintro (hd | ⟨q, hq, rfl⟩)
          · exact .inl hd
          · exact .inr ⟨q, List.mem_cons_of_mem _ hq, rfl⟩
        · rintro (hd | ⟨q, hq, rfl⟩)
          · exact .inl hd
          · rcases List.mem_cons.mp hq with rfl | hq
            · exact .inl hp
            · exact .inr ⟨q, hq, rfl⟩
      · rw [List.mem_append, List.mem_singleton, or_assoc, eq_comm (a := d)]
        refine or_congr_right ?_
        simp only [List.mem_cons, exists_eq_or_imp]
    · rw [recorded_tally, List.map_cons, List.sum_cons, Nat.add_assoc]

/-- What the contacts hold, in terms of the list of neighbours. -/
theorem contacts_spec (g : CallGraph) (a : Assignment) (v c : ℕ) :
    ((contacts g.linkView a v).map (·.1)).Nodup
      ∧ (c ∈ (contacts g.linkView a v).map (·.1)
          ↔ c ∈ [a.labelOf v] ∨ ∃ p ∈ g.incident v, a.labelOf p.1 = c)
      ∧ recorded (contacts g.linkView a v) c = recorded [(a.labelOf v, 0)] c
          + ((g.incident v).map fun p => if a.labelOf p.1 = c then p.2 else 0).sum := by
  rw [contacts, linkView_linksOf]
  exact foldl_tally a.labelOf c (g.incident v) [(a.labelOf v, 0)] (List.nodup_singleton _)

/-- **A vertex looks at its own community and at those of its neighbours.** -/
theorem mem_contacts : c ∈ (contacts g.linkView a v).map (·.1) ↔ g.Faces a v c := by
  rw [(contacts_spec g a v c).2.1, Faces, List.mem_singleton]
  refine or_congr_right ⟨?_, ?_⟩
  · rintro ⟨⟨u, w⟩, hu, rfl⟩
    obtain ⟨hne, hpos, rfl⟩ := mem_incident.mp hu
    exact ⟨u, hne, hpos, rfl⟩
  · rintro ⟨u, hne, hpos, rfl⟩
    exact ⟨(u, g.linkWeight v u), mem_incident.mpr ⟨hne, hpos, rfl⟩, rfl⟩

/-- **The weight counted for a community is the weight between the two.** -/
theorem recorded_contacts (g : CallGraph) (a : Assignment) (v c : ℕ) :
    recorded (contacts g.linkView a v) c = g.reach a v c := by
  have hstart : recorded [(a.labelOf v, 0)] c = 0 := by
    unfold recorded
    rw [List.lookup_singleton]
    split <;> rfl
  rw [(contacts_spec g a v c).2.2, hstart, Nat.zero_add, reach]
  exact sum_incident g v (fun u w => if a.labelOf u = c then w else 0) fun u => ite_self 0

theorem eq_reach_of_mem_contacts (h : (c, w) ∈ contacts g.linkView a v) : w = g.reach a v c := by
  rw [← recorded_contacts, recorded, (lookup_eq_some_iff_mem (contacts_spec g a v c).1).mpr h]
  rfl

/-! ## The best offer -/

theorem prefer_spec (view : LinkView) (p q : ℕ × ℤ) : prefer view p q ∈ [p, q]
    ∧ ∀ r ∈ [p, q], r.2 < (prefer view p q).2
      ∨ r.2 = (prefer view p q).2 ∧ view.rank (prefer view p q).1 ≤ view.rank r.1 := by
  unfold prefer
  split
  · rename_i h
    refine ⟨by simp, fun r hr => ?_⟩
    rcases List.mem_pair.mp hr with rfl | rfl
    · exact h.imp_right fun h => ⟨h.1.symm, h.2.le⟩
    · exact .inr ⟨rfl, le_rfl⟩
  · rename_i h
    refine ⟨by simp, fun r hr => ?_⟩
    rcases List.mem_pair.mp hr with rfl | rfl
    · exact .inr ⟨rfl, le_rfl⟩
    · rcases lt_trichotomy r.2 p.2 with hlt | heq | hgt
      · exact .inl hlt
      · exact .inr ⟨heq, not_lt.mp fun hrank => h (.inr ⟨heq, hrank⟩)⟩
      · exact absurd (.inl hgt) h

/-- **The best of a list of offers** is one of them; no offer beats it, and among equals none comes
before it by name. -/
theorem foldl_prefer (view : LinkView) : ∀ (l : List (ℕ × ℤ)) (p : ℕ × ℤ),
    l.foldl (prefer view) p ∈ p :: l
      ∧ ∀ r ∈ p :: l, r.2 < (l.foldl (prefer view) p).2
        ∨ r.2 = (l.foldl (prefer view) p).2
          ∧ view.rank (l.foldl (prefer view) p).1 ≤ view.rank r.1
  | [], p => by simp
  | q :: l, p => by
    obtain ⟨hpick, hbest⟩ := prefer_spec view p q
    obtain ⟨hmem, hmax⟩ := foldl_prefer view l (prefer view p q)
    rw [List.foldl_cons]
    have hbound : ∀ r ∈ [p, q], r.2 < (l.foldl (prefer view) (prefer view p q)).2
        ∨ r.2 = (l.foldl (prefer view) (prefer view p q)).2
          ∧ view.rank (l.foldl (prefer view) (prefer view p q)).1 ≤ view.rank r.1 := by
      intro r hr
      have hstep := hmax (prefer view p q) (by simp)
      rcases hbest r hr with hlt | ⟨heq, hrank⟩
      · exact .inl (hstep.elim hlt.trans fun h => h.1 ▸ hlt)
      · exact hstep.imp (heq ▸ ·) fun h => ⟨heq.trans h.1, h.2.trans hrank⟩
    refine ⟨?_, fun r hr => ?_⟩
    · rcases List.mem_cons.mp hmem with h | h
      · rw [h]
        rcases List.mem_pair.mp hpick with h | h <;> simp [h]
      · exact List.mem_cons_of_mem _ (List.mem_cons_of_mem _ h)
    · rcases List.mem_cons.mp hr with rfl | hr
      · exact hbound _ (by simp)
      · rcases List.mem_cons.mp hr with rfl | hr
        · exact hbound _ (by simp)
        · exact hmax r (List.mem_cons_of_mem _ hr)

/-! ## The tables -/

/-- The labels are vertices, and the sums kept are the degree sums of the current communities. -/
structure Sound (g : CallGraph) (s : Moving) : Prop where
  valid : s.assignment.Valid g.vertexCount
  size_sums : s.sums.size = g.vertexCount
  getD_sums : ∀ c < g.vertexCount, s.sums.getD c 0 = s.assignment.degreeSum g.degree c

theorem sound_start (h : a.Valid g.vertexCount) : Sound g (start g.linkView a) := by
  have hdegree : g.linkView.degree = g.degree := funext (linkView_degree g)
  refine ⟨h, ?_, fun c hc => ?_⟩
  · simp [start, degreeSums, h.1]
  · rw [start, degreeSums, h.1, hdegree]
    exact getD_tabulated _ 0 hc

/-- **Taking the degree of `v` out of its community leaves the degrees of the others.** -/
theorem Sound.getD_others (h : s.Sound g) (hv : v < g.vertexCount) (hc : c < g.vertexCount) :
    (s.sums.modify (s.assignment.labelOf v) (· - g.degree v)).getD c 0
      = g.otherDegrees s.assignment v c := by
  rw [getD_modify _ _ _ _ (h.size_sums.symm ▸ hc), h.getD_sums c hc, degreeSum_eq h.valid hv]
  split <;> omega

/-- The communities that `v` looks at, each with its pull. -/
def offers (g : CallGraph) (a : Assignment) (v : ℕ) : List (ℕ × ℤ) :=
  ((contacts g.linkView a v).map (·.1)).map fun c => (c, g.pull a v c)

theorem mem_offers {p : ℕ × ℤ} :
    p ∈ offers g a v ↔ ∃ c, g.Faces a v c ∧ (c, g.pull a v c) = p := by
  rw [offers, List.mem_map]
  simp only [mem_contacts]

/-- The worths that a visit works out are the pulls. -/
theorem Sound.offers_eq (h : s.Sound g) (hv : v < g.vertexCount) :
    (contacts g.linkView s.assignment v).map (fun p => (p.1, worth g.linkView (g.degree v) p.2
        ((s.sums.modify (s.assignment.labelOf v) (· - g.degree v)).getD p.1 0)))
      = offers g s.assignment v := by
  rw [offers, List.map_map]
  refine List.map_congr_left fun ⟨c, w⟩ hp => ?_
  have hfaces := mem_contacts.mp (List.mem_map.mpr ⟨_, hp, rfl⟩)
  rw [h.getD_others hv (hfaces.lt h.valid hv), eq_reach_of_mem_contacts hp, worth_eq_pull]
  rfl

/-! ## The visit -/

/-- Of the communities that `v` looks at, `c` pulls the most, and of those that pull as much it is
the one with the lowest-named identifier. -/
structure Best (g : CallGraph) (a : Assignment) (v c : ℕ) : Prop where
  faces : g.Faces a v c
  pull_le : ∀ d, g.Faces a v d → g.pull a v d ≤ g.pull a v c
  rank_le : ∀ d, g.Faces a v d → g.pull a v d = g.pull a v c → g.rank c ≤ g.rank d

/-- There is one best community. -/
theorem Best.unique (hc : Best g a v c) (hd : Best g a v d) (h : a.Valid g.vertexCount)
    (hv : v < g.vertexCount) : c = d := by
  have hpull : g.pull a v c = g.pull a v d :=
    le_antisymm (hd.pull_le c hc.faces) (hc.pull_le d hd.faces)
  refine rank_injOn (hc.faces.lt h hv) (hd.faces.lt h hv) (le_antisymm ?_ ?_)
  · exact hc.rank_le d hd.faces hpull.symm
  · exact hd.rank_le c hc.faces hpull

/-- The state after `v` has moved to the community `c`. -/
def moved (g : CallGraph) (s : Moving) (v c : ℕ) : Moving where
  assignment := s.assignment.relabel v c
  sums := (s.sums.modify (s.assignment.labelOf v) (· - g.degree v)).modify c (· + g.degree v)
  moves := s.moves + 1
  gain := s.gain + (g.pull s.assignment v c - g.pull s.assignment v (s.assignment.labelOf v))

theorem lookup_map_pair {β : Type} (f : ℕ → β) : ∀ {l : List ℕ}, c ∈ l →
    (l.map fun d => (d, f d)).lookup c = some (f c)
  | d :: l, h => by
    by_cases hc : c = d
    · simp [hc]
    · rw [List.map_cons, List.lookup_cons, beq_false_of_ne hc]
      exact lookup_map_pair f ((List.mem_cons.mp h).resolve_left hc)

theorem lookup_offers (g : CallGraph) (a : Assignment) (v : ℕ) :
    (offers g a v).lookup (a.labelOf v) = some (g.pull a v (a.labelOf v)) :=
  lookup_map_pair _ (mem_contacts.mpr (.inl rfl))

/-- **The best of the offers is the best community.** -/
theorem exists_best (h : a.Valid g.vertexCount) (hv : v < g.vertexCount) :
    ∃ c, Best g a v c ∧ (offers g a v).foldl (prefer g.linkView)
      (a.labelOf v, g.pull a v (a.labelOf v)) = (c, g.pull a v c) := by
  obtain ⟨hmem, hmax⟩ := foldl_prefer g.linkView (offers g a v)
    (a.labelOf v, g.pull a v (a.labelOf v))
  obtain ⟨c, hc, hbest⟩ : ∃ c, g.Faces a v c ∧ (offers g a v).foldl (prefer g.linkView)
      (a.labelOf v, g.pull a v (a.labelOf v)) = (c, g.pull a v c) := by
    rcases List.mem_cons.mp hmem with hstart | hlist
    · exact ⟨_, .inl rfl, hstart⟩
    · obtain ⟨c, hc, hpair⟩ := mem_offers.mp hlist
      exact ⟨c, hc, hpair.symm⟩
  have hoffer : ∀ d, g.Faces a v d → (d, g.pull a v d) ∈
      (a.labelOf v, g.pull a v (a.labelOf v)) :: offers g a v := fun d hd =>
    List.mem_cons_of_mem _ (mem_offers.mpr ⟨d, hd, rfl⟩)
  rw [hbest] at hmax
  refine ⟨c, ⟨hc, fun d hd => ?_, fun d hd heq => ?_⟩, hbest⟩
  · rcases hmax _ (hoffer d hd) with hlt | ⟨heq, -⟩
    · exact hlt.le
    · exact heq.le
  · rcases hmax _ (hoffer d hd) with hlt | ⟨-, hrank⟩
    · exact absurd heq hlt.ne
    · rwa [linkView_rank (hc.lt h hv), linkView_rank (hd.lt h hv)] at hrank

/-- **The visit looks for the best community** and moves the vertex when that beats staying. -/
theorem Sound.visit_eq (h : s.Sound g) (hv : v < g.vertexCount) :
    ∃ c, Best g s.assignment v c ∧ visit g.linkView s v
      = if g.pull s.assignment v (s.assignment.labelOf v) < g.pull s.assignment v c
        then moved g s v c else s := by
  obtain ⟨c, hc, hbest⟩ := exists_best h.valid hv
  have hstay : ((offers g s.assignment v).lookup (s.assignment.labelOf v)).getD 0
      = g.pull s.assignment v (s.assignment.labelOf v) := by
    rw [lookup_offers, Option.getD_some]
  have hvisit : visit g.linkView s v
      = if g.pull s.assignment v (s.assignment.labelOf v) < (c, g.pull s.assignment v c).2 then
          { assignment := s.assignment.relabel v (c, g.pull s.assignment v c).1
            sums := (s.sums.modify (s.assignment.labelOf v) (· - g.degree v)).modify
              (c, g.pull s.assignment v c).1 (· + g.degree v)
            moves := s.moves + 1
            gain := s.gain + ((c, g.pull s.assignment v c).2
              - g.pull s.assignment v (s.assignment.labelOf v)) }
        else s := by
    rw [← hbest, ← hstay, ← h.offers_eq hv, ← linkView_degree]
    rfl
  exact ⟨c, hc, hvisit⟩

/-- **A visit either finds nothing better than staying or moves the vertex to the best
community.** -/
theorem Sound.visit_cases (h : s.Sound g) (hv : v < g.vertexCount) :
    (visit g.linkView s v = s ∧ ∀ c, g.Faces s.assignment v c →
        g.pull s.assignment v c ≤ g.pull s.assignment v (s.assignment.labelOf v))
      ∨ ∃ c, Best g s.assignment v c
        ∧ g.pull s.assignment v (s.assignment.labelOf v) < g.pull s.assignment v c
        ∧ visit g.linkView s v = moved g s v c := by
  obtain ⟨c, hbest, hvisit⟩ := h.visit_eq hv
  by_cases hlt : g.pull s.assignment v (s.assignment.labelOf v) < g.pull s.assignment v c
  · exact .inr ⟨c, hbest, hlt, hvisit.trans (if_pos hlt)⟩
  · refine .inl ⟨hvisit.trans (if_neg hlt), fun d hd => ?_⟩
    exact (hbest.pull_le d hd).trans (not_lt.mp hlt)

/-- Moving a vertex keeps the tables right. -/
theorem Sound.moved (h : s.Sound g) (hv : v < g.vertexCount) (hc : c < g.vertexCount) :
    (moved g s v c).Sound g := by
  have hsize : v < s.assignment.size := h.valid.1.symm ▸ hv
  refine ⟨h.valid.relabel hv hc, ?_, fun d hd => ?_⟩
  · rw [Moving.moved, Array.size_modify, Array.size_modify, h.size_sums]
  · have hd' : d < (s.sums.modify (s.assignment.labelOf v) (· - g.degree v)).size := by
      rw [Array.size_modify, h.size_sums]
      exact hd
    rw [Moving.moved, getD_modify _ _ _ _ hd', h.getD_others hv hd,
      degreeSum_eq (h.valid.relabel hv hc) hv, otherDegrees_relabel hsize,
      labelOf_relabel _ hsize, if_pos rfl]
    split <;> rfl

end Moving

end CallCommunities
