import CallCommunities.Proofs.Partition.Carried
import CallCommunities.Proofs.Partition.Sweeps

/-!
# Proofs/Partition/InStep — local moving on a graph and on a copy of it

Let `h` hold a copy of `g`, with the vertices in their order.  A visit of a copy does what the visit of
the vertex does (`Follows.visit`), and a visit of any other vertex does nothing (`Follows.visit_idle`).
So a sweep over `h` is a sweep over `g` with idle visits in between, and **the two runs make the same
moves in the same sweeps** (`agrees_run`).
-/

namespace CallCommunities

open CallGraph Assignment

/-- The result on a graph that holds a copy: its partition is spread. -/
def LocalMoving.spread (φ : ℕ → ℕ) (g h : CallGraph) (r : LocalMoving) : LocalMoving :=
  { r with assignment := r.assignment.spread φ g h }

namespace Moving

variable {c : ℕ} {φ : ℕ → ℕ} {g h : CallGraph} {s t : Moving} {v x : ℕ}

/-- States that have led two runs, by as many moves, to a partition and to its spread form. -/
structure Follows (φ : ℕ → ℕ) (g h : CallGraph) (s t : Moving) : Prop where
  sound : s.Sound g
  sound' : t.Sound h
  assignment_eq : t.assignment = s.assignment.spread φ g h
  moves_eq : t.moves = s.moves

section Embedded

variable (hE : Embeds c φ g h)
include hE

/-- **Visits of vertices without calls do nothing.** -/
theorem Follows.visit_idle (hF : Follows φ g h s t) (hlt : x < h.vertexCount)
    (hx : x ∉ g.placed φ) : visit h.linkView t x = t :=
  (hF.sound'.visit_eq_self_iff hlt).mpr fun _ hfaces => hE.faces_idle hx hfaces ▸ le_rfl

variable (hc : 0 < c)
include hc

/-- **The visit of a copy does what the visit of the vertex does.** -/
theorem Follows.visit (hF : Follows φ g h s t) (hv : v < g.vertexCount) :
    Follows φ g h (visit g.linkView s v) (visit h.linkView t (φ v)) := by
  have hvalid := hF.sound.valid
  have hv' := hE.lt v hv
  obtain ⟨d, hd, hs⟩ := hF.sound.visit_eq hv
  obtain ⟨y, hy, ht⟩ := hF.sound'.visit_eq hv'
  have hlt := hd.faces.lt hvalid hv
  -- The best community is unique, so the copy's is the copy of the vertex's.
  have hy' : φ d = y := by
    refine Best.unique ?_ hy hF.sound'.valid hv'
    exact hF.assignment_eq ▸ hE.best_spread hc hvalid hv hd
  subst hy'
  have hbetter : h.pull t.assignment (φ v) (t.assignment.labelOf (φ v))
        < h.pull t.assignment (φ v) (φ d)
      ↔ g.pull s.assignment v (s.assignment.labelOf v) < g.pull s.assignment v d := by
    rw [hF.assignment_eq, hE.labelOf_spread _ hv, ← not_le, ← not_le,
      hE.pull_spread_le_iff hc hvalid hv hlt (hvalid.labelOf_lt hv)]
  have hsound := (hF.sound.visit hv).1
  have hsound' := (hF.sound'.visit hv').1
  by_cases hmove : g.pull s.assignment v (s.assignment.labelOf v) < g.pull s.assignment v d
  · rw [hs, if_pos hmove] at hsound ⊢
    rw [ht, if_pos (hbetter.mpr hmove)] at hsound' ⊢
    refine ⟨hsound, hsound', ?_, congrArg (· + 1) hF.moves_eq⟩
    simp only [moved, hF.assignment_eq, hE.spread_relabel hvalid hv]
  · rw [hs, if_neg hmove, ht, if_neg (hbetter.not.mpr hmove)]
    exact hF

/-- **Visits of the copies in the order of the vertices keep the runs in step**, with visits of other
vertices in between. -/
theorem Follows.foldl_visit : ∀ {l' l : List ℕ} {s t : Moving}, Follows φ g h s t →
    (∀ x ∈ l', x < h.vertexCount) → (∀ v ∈ l, v < g.vertexCount) →
    l'.filter (· ∈ g.placed φ) = l.map φ →
    Follows φ g h (l.foldl (Moving.visit g.linkView) s) (l'.foldl (Moving.visit h.linkView) t)
  | [], l, s, t, hF, _, _, hl => by
    rw [List.map_eq_nil_iff.mp hl.symm]
    exact hF
  | x :: l', l, s, t, hF, hlt', hlt, hl => by
    have hx := hlt' x (by simp)
    have htail : ∀ y ∈ l', y < h.vertexCount := fun y hy => hlt' y (List.mem_cons_of_mem _ hy)
    rw [List.foldl_cons]
    by_cases hmem : x ∈ g.placed φ
    · rw [List.filter_cons, if_pos (decide_eq_true hmem)] at hl
      obtain ⟨v, rest, rfl, rfl, hrest⟩ := List.map_eq_cons_iff.mp hl.symm
      rw [List.foldl_cons]
      have hstep := hF.visit hE hc (hlt v (by simp))
      exact hstep.foldl_visit htail (fun u hu => hlt u (List.mem_cons_of_mem _ hu)) hrest.symm
    · rw [List.filter_cons, if_neg (by simpa using hmem)] at hl
      rw [hF.visit_idle hE hx hmem]
      exact hF.foldl_visit htail hlt hl

theorem Follows.sweep (hφ : StrictMonoOn φ (Set.Iio g.vertexCount)) (hF : Follows φ g h s t) :
    Follows φ g h (sweep g.linkView s) (sweep h.linkView t) := by
  refine hF.foldl_visit hE hc (lt_of_mem_vertexList h) (lt_of_mem_vertexList g) ?_
  rw [linkView_vertexList, linkView_vertexList]
  exact hE.filter_vertexList hφ

end Embedded

end Moving

namespace LocalMoving

open Moving

variable {c : ℕ} {φ : ℕ → ℕ} {g h : CallGraph} {a : Assignment}

/-- Results of local moving that differ at most in what the moves are worth. -/
structure Agrees (r q : LocalMoving) : Prop where
  assignment_eq : q.assignment = r.assignment
  moves_eq : q.moves = r.moves
  sweeps_eq : q.sweeps = r.sweeps
  converged_eq : q.converged = r.converged

theorem agrees_sweepUpTo (hE : Embeds c φ g h) (hφ : StrictMonoOn φ (Set.Iio g.vertexCount))
    (hc : 0 < c) : ∀ (k : ℕ) {s t : Moving}, Follows φ g h s t →
    Agrees ((sweepUpTo g.linkView k s).spread φ g h) (sweepUpTo h.linkView k t)
  | 0, _, _, hF => ⟨hF.assignment_eq, hF.moves_eq, rfl, rfl⟩
  | k + 1, s, t, hF => by
    have hnext := hF.sweep hE hc hφ
    rw [sweepUpTo, sweepUpTo]
    simp only [hnext.moves_eq, hF.moves_eq]
    split
    · exact ⟨hnext.assignment_eq, rfl, rfl, rfl⟩
    · have hrest := agrees_sweepUpTo hE hφ hc k hnext
      exact ⟨hrest.assignment_eq, hrest.moves_eq, congrArg (· + 1) hrest.sweeps_eq,
        hrest.converged_eq⟩

/-- **Local moving runs in step on a graph and on a copy of it.** -/
theorem agrees_run (hE : Embeds c φ g h) (hφ : StrictMonoOn φ (Set.Iio g.vertexCount)) (hc : 0 < c)
    (ha : a.Valid g.vertexCount) (k : ℕ) :
    Agrees ((run g.linkView a k).spread φ g h) (run h.linkView (a.spread φ g h) k) := by
  have hidle : h.linkView.total = 0 ↔ g.linkView.total = 0 := by
    rw [linkView_total, linkView_total, hE.totalWeight_eq, Nat.mul_eq_zero,
      or_iff_right hc.ne']
  rw [run, run]
  simp only [hidle]
  split
  · exact ⟨rfl, rfl, rfl, rfl⟩
  · exact agrees_sweepUpTo hE hφ hc k
      ⟨sound_start ha, sound_start (hE.valid_spread ha), rfl, rfl⟩

end LocalMoving

end CallCommunities
