import CallCommunities.Proofs.Partition.Visit

/-!
# Proofs/Partition/Sweeps — what local moving amounts to

From visit to visit the score rises by exactly twice the gain counted, and every move gains at least
one (`Advances`).  So a run raises the score when it moves anything, and when it moves nothing it
hands back the partition it started from (`run_outcome`).  **A sweep that moves nothing is a local
optimum** (`sweep_eq_self_iff`); from singletons this means that no two vertices have a positive
balance (`improved_singletons_iff`).
-/

namespace CallCommunities

open Finset Assignment

/-- No vertex looks at a community that pulls it more than its own does. -/
def CallGraph.LocallyOptimal (g : CallGraph) (a : Assignment) : Prop :=
  ∀ v < g.vertexCount, ∀ c, g.Faces a v c → g.pull a v c ≤ g.pull a v (a.labelOf v)

namespace Moving

open CallGraph

variable {g : CallGraph} {a : Assignment} {r s t : Moving} {u v k : ℕ}

/-! ## From visit to visit -/

/-- What holds between a state and a later one of the same run. -/
structure Advances (g : CallGraph) (s t : Moving) : Prop where
  score_eq : g.score t.assignment = g.score s.assignment + 2 * (t.gain - s.gain)
  moves_le : s.moves ≤ t.moves
  moves_le_gain : (t.moves : ℤ) - s.moves ≤ t.gain - s.gain
  eq_of_moves_eq : t.moves = s.moves → t = s

theorem Advances.refl (g : CallGraph) (s : Moving) : Advances g s s where
  score_eq := by ring
  moves_le := le_rfl
  moves_le_gain := by simp
  eq_of_moves_eq _ := rfl

theorem Advances.trans (h : Advances g r s) (h' : Advances g s t) : Advances g r t where
  score_eq := by
    rw [h'.score_eq, h.score_eq]
    ring
  moves_le := h.moves_le.trans h'.moves_le
  moves_le_gain := by
    have := h.moves_le_gain
    have := h'.moves_le_gain
    omega
  eq_of_moves_eq heq := by
    have hle := h.moves_le
    have hle' := h'.moves_le
    have hts : t = s := h'.eq_of_moves_eq (by omega)
    subst hts
    exact h.eq_of_moves_eq heq

theorem Sound.visit (h : s.Sound g) (hv : v < g.vertexCount) :
    (visit g.linkView s v).Sound g ∧ Advances g s (visit g.linkView s v) := by
  rcases h.visit_cases hv with ⟨hstay, -⟩ | ⟨c, hbest, hlt, hmove⟩
  · rw [hstay]
    exact ⟨h, .refl g s⟩
  · have hc := hbest.faces.lt h.valid hv
    rw [hmove]
    refine ⟨h.moved hv hc, ?_, Nat.le_succ _, ?_, fun heq => ?_⟩
    · have hscore := score_relabel h.valid hv hc
      simp only [Moving.moved]
      rw [hscore]
      ring
    · simp only [Moving.moved]
      push_cast
      omega
    · simp [Moving.moved] at heq

theorem Sound.foldl_visit : ∀ {l : List ℕ} {s : Moving}, s.Sound g →
    (∀ v ∈ l, v < g.vertexCount) →
    (l.foldl (Moving.visit g.linkView) s).Sound g
      ∧ Advances g s (l.foldl (Moving.visit g.linkView) s)
  | [], s, h, _ => ⟨h, .refl g s⟩
  | v :: l, s, h, hl => by
    obtain ⟨hsound, hstep⟩ := h.visit (hl v (by simp))
    obtain ⟨hrest, hsteps⟩ := hsound.foldl_visit fun u hu => hl u (List.mem_cons_of_mem _ hu)
    exact ⟨hrest, hstep.trans hsteps⟩

/-- Visits that make no move make none one by one. -/
theorem Sound.visit_eq_self_of_foldl : ∀ {l : List ℕ} {s : Moving}, s.Sound g →
    (∀ v ∈ l, v < g.vertexCount) → l.foldl (Moving.visit g.linkView) s = s →
    ∀ v ∈ l, Moving.visit g.linkView s v = s
  | [], _, _, _, _ => fun _ hv => absurd hv List.not_mem_nil
  | v :: l, s, h, hl, heq => by
    obtain ⟨hsound, hstep⟩ := h.visit (hl v (by simp))
    have htail : ∀ u ∈ l, u < g.vertexCount := fun u hu => hl u (List.mem_cons_of_mem _ hu)
    have hsteps := (hsound.foldl_visit htail).2
    rw [List.foldl_cons] at heq
    rw [heq] at hsteps
    have hfirst : Moving.visit g.linkView s v = s :=
      hstep.eq_of_moves_eq (le_antisymm hsteps.moves_le hstep.moves_le)
    rw [hfirst] at heq
    intro u hu
    rcases List.mem_cons.mp hu with rfl | hu
    · exact hfirst
    · exact h.visit_eq_self_of_foldl htail heq u hu

theorem foldl_visit_eq_self : ∀ {l : List ℕ}, (∀ v ∈ l, Moving.visit g.linkView s v = s) →
    l.foldl (Moving.visit g.linkView) s = s
  | [], _ => rfl
  | v :: l, h => by
    rw [List.foldl_cons, h v (by simp)]
    exact foldl_visit_eq_self fun u hu => h u (List.mem_cons_of_mem _ hu)

/-! ## Sweeps -/

theorem lt_of_mem_vertexList (g : CallGraph) : ∀ v ∈ g.linkView.vertexList, v < g.vertexCount := by
  intro v hv
  rw [linkView_vertexList] at hv
  exact List.mem_range.mp hv

theorem Sound.sweep (h : s.Sound g) :
    (sweep g.linkView s).Sound g ∧ Advances g s (sweep g.linkView s) :=
  h.foldl_visit (lt_of_mem_vertexList g)

theorem Sound.visit_eq_self_iff (h : s.Sound g) (hv : v < g.vertexCount) :
    Moving.visit g.linkView s v = s ↔ ∀ c, g.Faces s.assignment v c →
      g.pull s.assignment v c ≤ g.pull s.assignment v (s.assignment.labelOf v) := by
  rcases h.visit_cases hv with ⟨hstay, hopt⟩ | ⟨c, hbest, hlt, hmove⟩
  · exact iff_of_true hstay hopt
  · refine iff_of_false (fun hstay => ?_) fun hopt => absurd (hopt c hbest.faces) (not_le.mpr hlt)
    have hmoves : (Moving.visit g.linkView s v).moves = s.moves := congrArg Moving.moves hstay
    rw [hmove, Moving.moved] at hmoves
    exact absurd hmoves (Nat.succ_ne_self _)

/-- **A sweep that moves nothing is a local optimum.** -/
theorem Sound.sweep_eq_self_iff (h : s.Sound g) :
    Moving.sweep g.linkView s = s ↔ g.LocallyOptimal s.assignment := by
  constructor
  · intro heq v hv
    have hmem : v ∈ g.linkView.vertexList := by
      rw [linkView_vertexList]
      exact List.mem_range.mpr hv
    exact (h.visit_eq_self_iff hv).mp
      (h.visit_eq_self_of_foldl (lt_of_mem_vertexList g) heq v hmem)
  · intro hopt
    refine foldl_visit_eq_self fun v hv => ?_
    have hlt := lt_of_mem_vertexList g v hv
    exact (h.visit_eq_self_iff hlt).mpr (hopt v hlt)

end Moving

namespace LocalMoving

open CallGraph Moving

variable {g : CallGraph} {a : Assignment} {s : Moving} {u v k : ℕ}

/-- **Sweeps lead to a later state**, and to one that a further sweep leaves alone when they
converge. -/
theorem sweepUpTo_spec : ∀ (k : ℕ) {s : Moving}, s.Sound g → ∃ t : Moving, t.Sound g
    ∧ Advances g s t
    ∧ (sweepUpTo g.linkView k s).assignment = t.assignment
    ∧ (sweepUpTo g.linkView k s).moves = t.moves
    ∧ (sweepUpTo g.linkView k s).gain = t.gain
    ∧ ((sweepUpTo g.linkView k s).converged = true → sweep g.linkView t = t)
    ∧ (0 < k → t.moves = s.moves → (sweepUpTo g.linkView k s).converged = true)
  | 0, s, h => ⟨s, h, .refl g s, rfl, rfl, rfl, fun hc => absurd hc (by simp [sweepUpTo]),
      fun hk => absurd hk (lt_irrefl 0)⟩
  | k + 1, s, h => by
    obtain ⟨hsound, hstep⟩ := h.sweep
    by_cases hidle : (sweep g.linkView s).moves = s.moves
    · have heq := hstep.eq_of_moves_eq hidle
      have hrun : sweepUpTo g.linkView (k + 1) s = ⟨s.assignment, s.moves, 1, true, s.gain⟩ := by
        rw [sweepUpTo, heq]
        simp
      rw [hrun]
      exact ⟨s, h, .refl g s, rfl, rfl, rfl, fun _ => heq, fun _ _ => rfl⟩
    · obtain ⟨t, ht, hsteps, hassign, hmoves, hgain, hconv, -⟩ := sweepUpTo_spec k hsound
      have hrun : sweepUpTo g.linkView (k + 1) s
          = { sweepUpTo g.linkView k (sweep g.linkView s) with
              sweeps := (sweepUpTo g.linkView k (sweep g.linkView s)).sweeps + 1 } := by
        rw [sweepUpTo]
        simp [hidle]
      rw [hrun]
      refine ⟨t, ht, hstep.trans hsteps, hassign, hmoves, hgain, hconv, fun _ heq => ?_⟩
      have hle := hstep.moves_le
      have hle' := hsteps.moves_le
      exact absurd (le_antisymm (by omega) hle) hidle

/-- What a run of local moving from `a` gives. -/
structure Outcome (g : CallGraph) (a : Assignment) (k : ℕ) (r : LocalMoving) : Prop where
  valid : r.assignment.Valid g.vertexCount
  score_eq : g.score r.assignment = g.score a + 2 * r.gain
  moves_le_gain : (r.moves : ℤ) ≤ r.gain
  eq_of_moves_eq_zero : r.moves = 0 → r.assignment = a
  locallyOptimal : r.converged = true → g.LocallyOptimal r.assignment
  converged : 0 < k → r.moves = 0 → r.converged = true

theorem locallyOptimal_of_totalWeight (h : g.totalWeight = 0) (a : Assignment) :
    g.LocallyOptimal a := by
  have hdegree : ∀ v ∈ g.vertexSet, g.degree v = 0 := by
    have hsum := sum_degree g
    rw [h] at hsum
    exact sum_eq_zero_iff.mp hsum
  have hpull : ∀ v c, g.pull a v c = 0 := fun v c => by
    refine sum_eq_zero fun u hu => ?_
    rw [balance, h, hdegree u (mem_of_mem_erase hu)]
    simp
  intro v _ c _
  rw [hpull, hpull]

theorem run_of_totalWeight (hm : g.totalWeight = 0) (a : Assignment) (k : ℕ) :
    run g.linkView a k = ⟨a, 0, 0, true, 0⟩ := by
  rw [run, linkView_total, if_pos hm]

theorem run_of_totalWeight_pos (hm : 0 < g.totalWeight) (a : Assignment) (k : ℕ) :
    run g.linkView a k = sweepUpTo g.linkView k (start g.linkView a) := by
  rw [run, linkView_total, if_neg hm.ne']

/-- **The outcome of local moving**: a valid partition whose score has risen by twice the gain. -/
theorem run_outcome (h : a.Valid g.vertexCount) (k : ℕ) :
    Outcome g a k (run g.linkView a k) := by
  rcases Nat.eq_zero_or_pos g.totalWeight with hm | hm
  · rw [run_of_totalWeight hm]
    exact ⟨h, by simp, le_rfl, fun _ => rfl, fun _ => locallyOptimal_of_totalWeight hm a,
      fun _ _ => rfl⟩
  · obtain ⟨t, ht, hsteps, hassign, hmoves, hgain, hconv, hidle⟩ :=
      sweepUpTo_spec k (sound_start h)
    rw [run_of_totalWeight_pos hm]
    refine ⟨hassign ▸ ht.valid, ?_, ?_, fun hzero => ?_, fun hc => ?_, fun hk hzero => ?_⟩
    · rw [hassign, hgain, hsteps.score_eq]
      simp [start]
    · have hle := hsteps.moves_le_gain
      rw [hmoves, hgain]
      simpa [start] using hle
    · rw [hassign, hsteps.eq_of_moves_eq (hmoves ▸ hzero)]
      rfl
    · rw [hassign]
      exact ht.sweep_eq_self_iff.mp (hconv hc)
    · exact hidle hk (hmoves ▸ hzero)

theorem improved_iff {r : LocalMoving} : r.improved = true ↔ 0 < r.moves := decide_eq_true_iff

/-- **A pass that moves anything raises the score.** -/
theorem score_lt_of_improved (h : a.Valid g.vertexCount)
    (himp : (run g.linkView a k).improved = true) :
    g.score a < g.score (run g.linkView a k).assignment := by
  have hout := run_outcome (g := g) h k
  have hle := hout.moves_le_gain
  have hmoves := improved_iff.mp himp
  rw [hout.score_eq]
  omega

/-- A run from a local optimum makes one sweep for nothing, if it may make one at all. -/
theorem run_eq_of_locallyOptimal (hm : 0 < g.totalWeight) (ha : a.Valid g.vertexCount)
    (h : g.LocallyOptimal a) (k : ℕ) : run g.linkView a k = ⟨a, 0, min 1 k, decide (0 < k), 0⟩ := by
  have hidle : sweep g.linkView (start g.linkView a) = start g.linkView a :=
    (sound_start ha).sweep_eq_self_iff.mpr h
  rw [run_of_totalWeight_pos hm]
  cases k with
  | zero => rfl
  | succ k =>
    rw [sweepUpTo, hidle, Nat.min_eq_left (Nat.le_add_left 1 k), decide_eq_true k.succ_pos]
    rfl

/-- **A run from a local optimum moves nothing**, whatever its ceiling. -/
theorem run_of_locallyOptimal (ha : a.Valid g.vertexCount) (h : g.LocallyOptimal a) (k : ℕ) :
    (run g.linkView a k).assignment = a ∧ (run g.linkView a k).moves = 0
      ∧ (run g.linkView a k).gain = 0 := by
  rcases Nat.eq_zero_or_pos g.totalWeight with hm | hm
  · rw [run_of_totalWeight hm]
    exact ⟨rfl, rfl, rfl⟩
  · rw [run_eq_of_locallyOptimal hm ha h]
    exact ⟨rfl, rfl, rfl⟩

/-- **A pass of at least one sweep moves nothing exactly from a local optimum.** -/
theorem not_improved_iff (h : a.Valid g.vertexCount) (hk : 0 < k) :
    (run g.linkView a k).improved = false ↔ g.LocallyOptimal a := by
  have hout := run_outcome (g := g) h k
  have hzero : (run g.linkView a k).improved = false ↔ (run g.linkView a k).moves = 0 := by
    rw [← Bool.not_eq_true, improved_iff, Nat.pos_iff_ne_zero, not_not]
  rw [hzero]
  constructor
  · intro hmoves
    have hopt := hout.locallyOptimal (hout.converged hk hmoves)
    rwa [hout.eq_of_moves_eq_zero hmoves] at hopt
  · intro hopt
    exact (run_of_locallyOptimal h hopt k).2.1

/-! ## What visits keep -/

section Induction

variable {P : Assignment → Prop} (hvisit : ∀ s : Moving, s.Sound g → ∀ v < g.vertexCount,
  P s.assignment → P (visit g.linkView s v).assignment)
include hvisit

theorem foldl_visit_induction : ∀ {l : List ℕ} {s : Moving}, s.Sound g →
    (∀ v ∈ l, v < g.vertexCount) → P s.assignment →
    P (l.foldl (visit g.linkView) s).assignment
  | [], _, _, _, h => h
  | v :: l, s, hs, hl, h => by
    have hv := hl v (by simp)
    have hnext := hvisit s hs v hv h
    rw [List.foldl_cons]
    exact foldl_visit_induction (hs.visit hv).1 (fun u hu => hl u (List.mem_cons_of_mem _ hu)) hnext

theorem sweepUpTo_induction : ∀ (k : ℕ) {s : Moving}, s.Sound g → P s.assignment →
    P (sweepUpTo g.linkView k s).assignment
  | 0, _, _, h => h
  | k + 1, s, hs, h => by
    have hnext : P (sweep g.linkView s).assignment :=
      foldl_visit_induction hvisit hs (lt_of_mem_vertexList g) h
    rw [sweepUpTo]
    simp only
    split
    · exact hnext
    · exact sweepUpTo_induction k hs.sweep.1 hnext

/-- **What every visit keeps, local moving keeps.** -/
theorem run_induction (ha : a.Valid g.vertexCount) (h : P a) (k : ℕ) :
    P (run g.linkView a k).assignment := by
  rw [run]
  split
  · exact h
  · exact sweepUpTo_induction hvisit k (sound_start ha) h

end Induction

/-! ## From singletons -/

theorem pull_singletons_self (g : CallGraph) (v : ℕ) :
    g.pull (singletons g.vertexCount) v v = 0 := by
  refine sum_eq_zero fun u hu => ?_
  rw [labelOf_singletons, if_neg (ne_of_mem_erase hu)]

theorem pull_singletons (hu : u < g.vertexCount) (huv : u ≠ v) :
    g.pull (singletons g.vertexCount) v u = g.balance v u := by
  rw [pull, sum_eq_single_of_mem u (mem_erase.mpr ⟨huv, mem_vertexSet.mpr hu⟩)]
  · rw [labelOf_singletons, if_pos rfl]
  · intro w _ hw
    rw [labelOf_singletons, if_neg hw]

theorem locallyOptimal_singletons_iff (g : CallGraph) :
    g.LocallyOptimal (singletons g.vertexCount)
      ↔ ∀ u < g.vertexCount, ∀ v < g.vertexCount, u ≠ v → g.balance u v ≤ 0 := by
  constructor
  · intro hopt u hu v hv huv
    rcases Nat.eq_zero_or_pos (g.linkWeight u v) with h0 | hpos
    · exact balance_nonpos h0
    · have hfaces : g.Faces (singletons g.vertexCount) u v :=
        .inr ⟨v, huv.symm, hpos, labelOf_singletons _ v⟩
      have hle := hopt u hu v hfaces
      rwa [labelOf_singletons, pull_singletons_self, pull_singletons hv huv.symm] at hle
  · intro hbal v hv c hfaces
    rw [labelOf_singletons, pull_singletons_self]
    rcases hfaces with rfl | ⟨u, hne, hpos, rfl⟩
    · rw [labelOf_singletons, pull_singletons_self]
    · have hu := lt_of_linkWeight_pos hpos
      rw [labelOf_singletons, pull_singletons hu hne]
      exact hbal v hv u hu hne.symm

/-- **From singletons something moves exactly when two vertices have a positive balance.** -/
theorem improved_singletons_iff (g : CallGraph) (hk : 0 < k) :
    (run g.linkView (singletons g.vertexCount) k).improved = true
      ↔ ∃ u v, u < g.vertexCount ∧ v < g.vertexCount ∧ u ≠ v ∧ 0 < g.balance u v := by
  rw [← not_iff_not, Bool.not_eq_true, not_improved_iff (valid_singletons _) hk,
    locallyOptimal_singletons_iff]
  push Not
  exact ⟨fun h u v hu hv => h u hu v hv, fun h u hu v hv => h u v hu hv⟩

end LocalMoving

end CallCommunities
