import CallCommunities.Proofs.Partition.Restart
import CallCommunities.Proofs.Words.Bounds

/-!
# Proofs/Partition/Termination — local moving ends by itself

Vertices may go back and forth between communities, and identifiers are used again, so nothing in the
labels shrinks.  The potential is the score: it lies between `-4m²` and `4m²`, and every move raises it by
two at least.  So **there are at most `4m²` moves**, whatever vertices are visited and in whatever order
(`Advances.moves_le_add`), and **visits never come back to groups they have left**
(`Advances.eq_of_sameGroups`).

All sweeps but the last one of a run that converges move something, so more than `4m²` sweeps are never
made without one that moves nothing (`converged_of_lt`), and a ceiling above `4m²` is no ceiling.
-/

namespace CallCommunities

open Assignment

namespace Moving

open CallGraph

variable {g : CallGraph} {s t : Moving}

/-- **Between any two states of a run there are at most `4m²` moves.** -/
theorem Advances.moves_le_add (h : Advances g s t) (hs : s.Sound g) (ht : t.Sound g) :
    t.moves ≤ s.moves + 4 * g.totalWeight ^ 2 := by
  have hgain := (h.gain_le hs ht).2
  have hmoves := h.moves_le_gain
  rw [sq]
  omega

/-- **Groups that have been left do not come back.**  The score would be what it was, so nothing has been
gained, and nothing has moved. -/
theorem Advances.eq_of_sameGroups (h : Advances g s t) (hs : s.Sound g) (ht : t.Sound g)
    (hsame : SameGroups s.assignment t.assignment) : t = s := by
  have hscore := h.score_eq
  rw [score_congr hs.valid ht.valid hsame] at hscore
  have hmoves := h.moves_le_gain
  have hle := h.moves_le
  exact h.eq_of_moves_eq (by omega)

end Moving

namespace LocalMoving

open CallGraph Moving

variable {g : CallGraph} {a : Assignment} {k : ℕ}

/-- **Every sweep that is not the last one moves something.** -/
theorem add_le_moves_of_not_converged : ∀ {k : ℕ} {s : Moving}, s.Sound g →
    (sweepUpTo g.linkView k s).converged = false → s.moves + k ≤ (sweepUpTo g.linkView k s).moves
  | 0, _, _, _ => le_rfl
  | k + 1, s, hs, h => by
    obtain ⟨hsound, hstep⟩ := hs.sweep
    rw [sweepUpTo] at h ⊢
    simp only at h ⊢
    split at h
    · exact absurd h.symm Bool.false_ne_true
    · rename_i hmoved
      have hrest := add_le_moves_of_not_converged hsound h
      have hle := hstep.moves_le
      rw [if_neg hmoved]
      simp only
      omega

theorem le_moves_of_not_converged (ha : a.Valid g.vertexCount)
    (h : (run g.linkView a k).converged = false) : k ≤ (run g.linkView a k).moves := by
  have hm := totalWeight_pos_of_not_converged h
  rw [run_of_totalWeight_pos hm] at h ⊢
  have hle := add_le_moves_of_not_converged (sound_start ha) h
  rwa [start, Nat.zero_add] at hle

/-- **A run makes at most `4m²` moves**, whatever its ceiling. -/
theorem moves_le (ha : a.Valid g.vertexCount) (k : ℕ) :
    (run g.linkView a k).moves ≤ 4 * g.totalWeight ^ 2 := by
  have hout := run_outcome (g := g) ha k
  have hbefore := abs_le.mp (abs_score_le ha)
  have hafter := abs_le.mp (abs_score_le hout.valid)
  have hscore := hout.score_eq
  have hmoves := hout.moves_le_gain
  rw [sq]
  omega

/-- **With more than `4m²` sweeps to spend a run converges.** -/
theorem converged_of_lt (ha : a.Valid g.vertexCount) (hk : 4 * g.totalWeight ^ 2 < k) :
    (run g.linkView a k).converged = true := by
  rw [← Bool.not_eq_false]
  intro h
  exact absurd ((le_moves_of_not_converged ha h).trans (moves_le ha k)) (not_le.mpr hk)

/-- A ceiling above `4m²` is no ceiling. -/
theorem run_eq_of_lt (ha : a.Valid g.vertexCount) (hk : 4 * g.totalWeight ^ 2 < k) :
    run g.linkView a k = run g.linkView a (4 * g.totalWeight ^ 2 + 1) :=
  run_of_converged hk (converged_of_lt ha (Nat.lt_succ_self _))

end LocalMoving

open Moving LocalMoving

variable {g : CallGraph} {a : Assignment}

/-- **Local moving ends by itself.**  A run makes at most `4m²` moves, whatever its ceiling; under any
ceiling above `4m²` it converges, with the same partition, moves, sweeps and gain under each of them.
This is not due to the order of the visits: whatever vertices are visited, there are at most `4m²` moves,
and where later visits lead back to the same groups, they have moved nothing. -/
theorem moving_terminates (ha : a.Valid g.vertexCount) :
    (∀ k, (run g.linkView a k).moves ≤ 4 * g.totalWeight ^ 2)
    ∧ (∀ k, 4 * g.totalWeight ^ 2 < k → (run g.linkView a k).converged = true)
    ∧ (∀ k l, 4 * g.totalWeight ^ 2 < k → 4 * g.totalWeight ^ 2 < l →
        run g.linkView a k = run g.linkView a l)
    ∧ ∀ visits more : List ℕ, (∀ u ∈ visits, u < g.vertexCount) → (∀ u ∈ more, u < g.vertexCount) →
      let s := visits.foldl (visit g.linkView) (start g.linkView a)
      let t := more.foldl (visit g.linkView) s
      t.moves ≤ 4 * g.totalWeight ^ 2 ∧ (SameGroups s.assignment t.assignment → t = s) := by
  refine ⟨moves_le ha, fun k hk => converged_of_lt ha hk, fun k l hk hl => ?_,
    fun visits more hvisits hmore => ?_⟩
  · rw [run_eq_of_lt ha hk, run_eq_of_lt ha hl]
  · intro s t
    have hs : Underway g a s := (underway_start ha).foldl_visit hvisits
    have ht : Underway g a t := hs.foldl_visit hmore
    have hsteps : Advances g s t := (hs.sound.foldl_visit hmore).2
    refine ⟨?_, hsteps.eq_of_sameGroups hs.sound ht.sound⟩
    have hle := ht.advances.moves_le_add (sound_start ha) ht.sound
    rwa [start, Nat.zero_add] at hle

/-- On the trail, where `m` is `3`, ceilings above `36` do not matter.  Three moves are made in whatever
order, and further visits find everything where they would put it. -/
theorem moving_terminates_trail :
    Assignment.Valid CallGraph.trail.vertexCount ⟨#[0, 1, 2]⟩
    ∧ 4 * CallGraph.trail.totalWeight ^ 2 = 36
    ∧ (run CallGraph.trail.linkView ⟨#[0, 1, 2]⟩ 37).converged = true
    ∧ run CallGraph.trail.linkView ⟨#[0, 1, 2]⟩ (10 ^ 9) = ⟨⟨#[2, 2, 2]⟩, 3, 3, true, 7⟩
    ∧ ∃ s, s = [0, 1, 0].foldl (visit CallGraph.trail.linkView)
        (start CallGraph.trail.linkView ⟨#[0, 1, 2]⟩)
      ∧ s.moves = 3 ∧ [2, 1, 0].foldl (visit CallGraph.trail.linkView) s = s := by
  have hvalid : Assignment.Valid CallGraph.trail.vertexCount ⟨#[0, 1, 2]⟩ := ⟨rfl, by decide +kernel⟩
  have hbound : 4 * CallGraph.trail.totalWeight ^ 2 = 36 := by decide +kernel
  have hrun : run CallGraph.trail.linkView ⟨#[0, 1, 2]⟩ 37 = ⟨⟨#[2, 2, 2]⟩, 3, 3, true, 7⟩ := by
    decide +kernel
  obtain ⟨-, hconverged, hsame, hvisits⟩ := moving_terminates hvalid
  rw [hbound] at hconverged hsame
  obtain ⟨-, hback⟩ := hvisits [0, 1, 0] [2, 1, 0] (by decide +kernel) (by decide +kernel)
  have hgroups : ([2, 1, 0].foldl (visit CallGraph.trail.linkView)
      ([0, 1, 0].foldl (visit CallGraph.trail.linkView)
        (start CallGraph.trail.linkView ⟨#[0, 1, 2]⟩))).assignment
      = ([0, 1, 0].foldl (visit CallGraph.trail.linkView)
        (start CallGraph.trail.linkView ⟨#[0, 1, 2]⟩)).assignment := by decide +kernel
  refine ⟨hvalid, hbound, hconverged 37 (by decide), ?_, _, rfl, by decide +kernel, hback ?_⟩
  · exact (hsame (10 ^ 9) 37 (by decide) (by decide)).trans hrun
  · rw [hgroups]
    exact .refl _

end CallCommunities
