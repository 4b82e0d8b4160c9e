import CallCommunities.Proofs.Partition.Gains

/-!
# Proofs/Partition/Restart — sweeps made in two runs

A run hands on its partition and nothing else: the next one sets up its tables anew and counts from
zero.  The tables are a function of the partition at any time (`Sound.eq_ahead_start`), and the counters
are never looked at (`visit_ahead`).  So **nothing is lost by stopping**: a run that has not come to rest,
followed by another, is one run of all their sweeps (`run_add_of_not_converged`), and one that has come
to rest has nothing left to do (`run_of_converged`).

Where the last sweep moved something, a run cannot know that nothing is left to move.  One sweep more
tells: **a run of `k + 1` sweeps converges exactly when `k` sweeps lead to a local optimum**
(`converged_succ_iff`).
-/

namespace CallCommunities

open Assignment

namespace Moving

open CallGraph

variable {view : LinkView} {g : CallGraph} {s : Moving} {i : ℕ} {x : ℤ}

/-! ## Counters that started higher -/

/-- The same partition and tables, with `i` moves and a gain of `x` counted before. -/
def ahead (i : ℕ) (x : ℤ) (s : Moving) : Moving :=
  { s with moves := s.moves + i, gain := s.gain + x }

/-- **A visit does not look at the counters.** -/
theorem visit_ahead (view : LinkView) (i : ℕ) (x : ℤ) (s : Moving) (v : ℕ) :
    visit view (s.ahead i x) v = (visit view s v).ahead i x := by
  have hstay : (s.ahead i x).stay view v = s.stay view v := rfl
  have hbest : (s.ahead i x).best view v = s.best view v := rfl
  rw [visit_eq_best, visit_eq_best, hstay, hbest]
  split
  · exact congrArg₂ (Moving.mk _ _) (Nat.add_right_comm _ _ _) (add_right_comm _ _ _)
  · rfl

theorem foldl_visit_ahead (view : LinkView) (i : ℕ) (x : ℤ) : ∀ (l : List ℕ) (s : Moving),
    l.foldl (visit view) (s.ahead i x) = (l.foldl (visit view) s).ahead i x
  | [], _ => rfl
  | v :: l, s => by
    rw [List.foldl_cons, List.foldl_cons, visit_ahead, foldl_visit_ahead view i x l]

theorem sweep_ahead (view : LinkView) (i : ℕ) (x : ℤ) (s : Moving) :
    (s.ahead i x).sweep view = (s.sweep view).ahead i x := foldl_visit_ahead view i x _ s

/-- **The tables are a function of the partition**: those kept from move to move are those set up
anew. -/
theorem Sound.sums_eq (h : s.Sound g) : (start g.linkView s.assignment).sums = s.sums := by
  have hnew := sound_start h.valid
  refine ext_getD 0 (hnew.size_sums.trans h.size_sums.symm) fun c hc => ?_
  have hc : c < g.vertexCount := hnew.size_sums ▸ hc
  rw [hnew.getD_sums c hc, h.getD_sums c hc]
  rfl

/-- A state is the start from its partition, with other counters. -/
theorem Sound.eq_ahead_start (h : s.Sound g) :
    s = (start g.linkView s.assignment).ahead s.moves s.gain := by
  rw [ahead, h.sums_eq]
  simp [start]

/-- The state after a number of sweeps. -/
def after (view : LinkView) (k : ℕ) (s : Moving) : Moving := (sweep view)^[k] s

theorem after_succ (view : LinkView) (k : ℕ) (s : Moving) :
    s.after view (k + 1) = (s.sweep view).after view k := Function.iterate_succ_apply _ _ _

theorem Sound.after : ∀ (k : ℕ) {s : Moving}, s.Sound g → (s.after g.linkView k).Sound g
  | 0, _, h => h
  | k + 1, s, h => by
    rw [after_succ]
    exact Sound.after k h.sweep.1

end Moving

namespace LocalMoving

open CallGraph Moving

variable {view : LinkView} {g : CallGraph} {a : Assignment} {s : Moving} {k l : ℕ}

/-! ## Runs that came to rest -/

/-- Sweeps that came to rest are the same under a higher ceiling. -/
theorem sweepUpTo_of_converged : ∀ {k k' : ℕ} {s : Moving}, k ≤ k' →
    (sweepUpTo view k s).converged = true → sweepUpTo view k' s = sweepUpTo view k s
  | 0, _, _, _, h => absurd h Bool.false_ne_true
  | _ + 1, 0, _, hle, _ => absurd hle (Nat.not_succ_le_zero _)
  | k + 1, k' + 1, s, hle, h => by
    simp only [sweepUpTo] at h ⊢
    split
    · rfl
    · rename_i hmoved
      rw [if_neg hmoved] at h
      rw [sweepUpTo_of_converged (Nat.le_of_succ_le_succ hle) h]

/-- **A run that converged is the same under a higher ceiling.** -/
theorem run_of_converged {k k' : ℕ} (hle : k ≤ k') (h : (run view a k).converged = true) :
    run view a k' = run view a k := by
  unfold run at h ⊢
  split
  · rfl
  · rename_i hm
    rw [if_neg hm] at h
    exact sweepUpTo_of_converged hle h

/-! ## Runs that were stopped -/

/-- Sweeps that have not come to rest, and more sweeps from where they were stopped. -/
theorem sweepUpTo_add (view : LinkView) (l : ℕ) : ∀ {k : ℕ} {s : Moving},
    (sweepUpTo view k s).converged = false → sweepUpTo view (k + l) s =
      { sweepUpTo view l (s.after view k) with
        sweeps := (sweepUpTo view l (s.after view k)).sweeps + k }
  | 0, s, _ => by
    rw [Nat.zero_add]
    rfl
  | k + 1, s, h => by
    simp only [sweepUpTo] at h
    split at h
    · exact absurd h.symm Bool.false_ne_true
    · rename_i hmoved
      rw [Nat.succ_add, sweepUpTo, after_succ]
      simp only
      rw [if_neg hmoved, sweepUpTo_add view l h]
      rfl

/-- **Sweeps that have not come to rest are all the sweeps there may be.** -/
theorem sweepUpTo_of_not_converged (h : (sweepUpTo view k s).converged = false) :
    sweepUpTo view k s
      = ⟨(s.after view k).assignment, (s.after view k).moves, k, false, (s.after view k).gain⟩ := by
  have hstop := sweepUpTo_add view 0 h
  rw [Nat.add_zero, sweepUpTo, Nat.zero_add] at hstop
  exact hstop

theorem totalWeight_pos_of_not_converged (h : (run g.linkView a k).converged = false) :
    0 < g.totalWeight := by
  refine Nat.pos_of_ne_zero fun hm => ?_
  rw [run_of_totalWeight hm] at h
  exact absurd h.symm Bool.false_ne_true

/-- **A run that has not converged has made all the sweeps it may.** -/
theorem sweeps_of_not_converged (h : (run g.linkView a k).converged = false) :
    (run g.linkView a k).sweeps = k := by
  have hm := totalWeight_pos_of_not_converged h
  rw [run_of_totalWeight_pos hm] at h ⊢
  rw [sweepUpTo_of_not_converged h]

/-! ## Two runs as one -/

/-- A result with `i` moves and a gain of `x` counted before. -/
def ahead (i : ℕ) (x : ℤ) (r : LocalMoving) : LocalMoving :=
  { r with moves := r.moves + i, gain := r.gain + x }

theorem sweepUpTo_ahead (view : LinkView) (i : ℕ) (x : ℤ) : ∀ (k : ℕ) (s : Moving),
    sweepUpTo view k (s.ahead i x) = (sweepUpTo view k s).ahead i x
  | 0, _ => rfl
  | k + 1, s => by
    have hmoves : ((s.sweep view).ahead i x).moves = (s.ahead i x).moves
        ↔ (s.sweep view).moves = s.moves := Nat.add_right_cancel_iff
    rw [sweepUpTo, sweepUpTo, sweep_ahead, sweepUpTo_ahead view i x k]
    simp only [hmoves]
    split <;> rfl

/-- One run and then another, as one result. -/
def andThen (r q : LocalMoving) : LocalMoving :=
  ⟨q.assignment, r.moves + q.moves, r.sweeps + q.sweeps, q.converged, r.gain + q.gain⟩

/-- **Nothing is lost by stopping**: a run that has not converged and a run from where it was stopped are
one run. -/
theorem run_add_of_not_converged (ha : a.Valid g.vertexCount)
    (h : (run g.linkView a k).converged = false) (l : ℕ) : run g.linkView a (k + l)
      = (run g.linkView a k).andThen (run g.linkView (run g.linkView a k).assignment l) := by
  have hm := totalWeight_pos_of_not_converged h
  rw [run_of_totalWeight_pos hm] at h
  have hstop := ((sound_start ha).after k).eq_ahead_start
  rw [run_of_totalWeight_pos hm, run_of_totalWeight_pos hm, run_of_totalWeight_pos hm,
    sweepUpTo_add _ l h, sweepUpTo_of_not_converged h]
  generalize (start g.linkView a).after g.linkView k = t at hstop ⊢
  have hrest := congrArg (sweepUpTo g.linkView l) hstop
  rw [sweepUpTo_ahead] at hrest
  rw [hrest]
  simp only [ahead, andThen, add_comm]

/-! ## One sweep more -/

theorem moves_of_converged_one (h : (run view a 1).converged = true) : (run view a 1).moves = 0 := by
  rw [run] at h ⊢
  split
  · rfl
  · rename_i hm
    rw [if_neg hm, sweepUpTo] at h
    rw [sweepUpTo]
    split
    · assumption
    · rename_i hmoved
      rw [if_neg hmoved] at h
      exact absurd h Bool.false_ne_true

/-- **A single sweep converges exactly from a local optimum.** -/
theorem converged_one_iff (ha : a.Valid g.vertexCount) :
    (run g.linkView a 1).converged = true ↔ g.LocallyOptimal a := by
  have hout := run_outcome (g := g) ha 1
  constructor
  · intro h
    have hopt := hout.locallyOptimal h
    rwa [hout.eq_of_moves_eq_zero (moves_of_converged_one h)] at hopt
  · intro h
    exact hout.converged Nat.one_pos (run_of_locallyOptimal ha h 1).2.1

/-- **One sweep more shows that a local optimum has been reached.** -/
theorem run_succ_of_locallyOptimal (ha : a.Valid g.vertexCount)
    (h : (run g.linkView a k).converged = false)
    (hopt : g.LocallyOptimal (run g.linkView a k).assignment) :
    run g.linkView a (k + 1) = { run g.linkView a k with sweeps := k + 1, converged := true } := by
  have hvalid := (run_outcome (g := g) ha k).valid
  rw [run_add_of_not_converged ha h,
    run_eq_of_locallyOptimal (totalWeight_pos_of_not_converged h) hvalid hopt, andThen,
    sweeps_of_not_converged h]
  simp only [add_zero]
  rfl

/-- **A run of `k + 1` sweeps converges exactly when `k` sweeps lead to a local optimum.** -/
theorem converged_succ_iff (ha : a.Valid g.vertexCount) (k : ℕ) :
    (run g.linkView a (k + 1)).converged = true ↔ g.LocallyOptimal (run g.linkView a k).assignment := by
  have hout := run_outcome (g := g) ha k
  rcases hconv : (run g.linkView a k).converged with _ | _
  · rw [run_add_of_not_converged ha hconv]
    exact converged_one_iff hout.valid
  · rw [run_of_converged k.le_succ hconv]
    exact iff_of_true hconv (hout.locallyOptimal hconv)

end LocalMoving

open LocalMoving

variable {g : CallGraph} {a : Assignment}

/-- **Sweeps compose.**  At most `s` sweeps, and at most `t` more in a run of its own from where those
ended, give the partition, the moves and the gain of at most `s + t` sweeps in one run.  The one run
converges exactly when one of the two does, and it makes the sweeps of both, unless the first run
converges: then it makes no more than that one. -/
theorem sweeps_compose (ha : a.Valid g.vertexCount) (s t : ℕ) :
    let r := run g.linkView a s
    let q := run g.linkView r.assignment t
    let whole := run g.linkView a (s + t)
    whole.assignment = q.assignment
      ∧ whole.moves = r.moves + q.moves
      ∧ whole.gain = r.gain + q.gain
      ∧ whole.converged = (r.converged || q.converged)
      ∧ whole.sweeps = r.sweeps + if r.converged then 0 else q.sweeps := by
  intro r q whole
  rcases hr : r.converged with _ | _
  · have hwhole : whole = r.andThen q := run_add_of_not_converged ha hr t
    rw [hwhole]
    exact ⟨rfl, rfl, rfl, rfl, rfl⟩
  · have hwhole : whole = r := run_of_converged (Nat.le_add_right s t) hr
    have hout := run_outcome (g := g) ha s
    obtain ⟨hassignment, hmoves, hgain⟩ := run_of_locallyOptimal hout.valid (hout.locallyOptimal hr) t
    rw [hwhole, hassignment, hmoves, hgain]
    exact ⟨rfl, rfl, (add_zero _).symm, hr, rfl⟩

/-- A path whose second call is the heavier one: the middle vertex leaves the first one for the last one,
and the first one can only follow in the next sweep. -/
def CallGraph.trail : CallGraph := .ofArcs ⟨["a", "b", "c"], by decide⟩ [⟨0, 1, 1⟩, ⟨1, 2, 2⟩]

/-- On the trail the second sweep moves the first vertex after the others. -/
theorem sweeps_compose_trail :
    Assignment.Valid CallGraph.trail.vertexCount ⟨#[0, 1, 2]⟩
    ∧ run CallGraph.trail.linkView ⟨#[0, 1, 2]⟩ 1 = ⟨⟨#[1, 2, 2]⟩, 2, 1, false, 6⟩
    ∧ run CallGraph.trail.linkView ⟨#[1, 2, 2]⟩ 4 = ⟨⟨#[2, 2, 2]⟩, 1, 2, true, 1⟩
    ∧ (run CallGraph.trail.linkView ⟨#[0, 1, 2]⟩ (1 + 4)).assignment = ⟨#[2, 2, 2]⟩
    ∧ (run CallGraph.trail.linkView ⟨#[0, 1, 2]⟩ (1 + 4)).moves = 2 + 1
    ∧ (run CallGraph.trail.linkView ⟨#[0, 1, 2]⟩ (1 + 4)).gain = 6 + 1
    ∧ (run CallGraph.trail.linkView ⟨#[0, 1, 2]⟩ (1 + 4)).sweeps = 1 + 2 := by
  have hvalid : Assignment.Valid CallGraph.trail.vertexCount ⟨#[0, 1, 2]⟩ := ⟨rfl, by decide +kernel⟩
  have hfirst : run CallGraph.trail.linkView ⟨#[0, 1, 2]⟩ 1 = ⟨⟨#[1, 2, 2]⟩, 2, 1, false, 6⟩ := by
    decide +kernel
  have hsecond : run CallGraph.trail.linkView ⟨#[1, 2, 2]⟩ 4 = ⟨⟨#[2, 2, 2]⟩, 1, 2, true, 1⟩ := by
    decide +kernel
  obtain ⟨hassignment, hmoves, hgain, -, hsweeps⟩ := sweeps_compose hvalid 1 4
  rw [hfirst, hsecond] at hassignment hmoves hgain hsweeps
  exact ⟨hvalid, hfirst, hsecond, hassignment, hmoves, hgain, hsweeps⟩

end CallCommunities
