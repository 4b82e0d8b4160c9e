import CallCommunities.Proofs.Partition.Sweeps

/-!
# Proofs/Partition/Plain — local moving by its definition

The plain form of local moving keeps nothing but the labels.  For every vertex it adds up anew what the
other members of each community share with it and what their degrees are, compares every community
around the vertex with every other one, by name where they are equal, and moves the vertex if the best
one beats staying.

Every form of local moving is a `Machine`; **two machines that keep in step give the same result**
(`InStep.run_eq`).  What the plain form adds up is the pull of a community (`merit_eq_pull`) and what it
chooses is the best one (`best_choice`), so the tables kept from move to move change nothing
(`run_eq_plainRun`).  Only a graph without calls is not swept as the plain form sweeps it
(`plainRun_of_totalWeight`).
-/

namespace CallCommunities

open Finset Assignment

/-! ## Machines -/

/-- A form of local moving: how it visits a vertex, and what can be read off its states. -/
structure Machine (σ : Type) where
  visit : σ → ℕ → σ
  assignment : σ → Assignment
  moves : σ → ℕ
  gain : σ → ℤ

namespace Machine

variable {σ τ : Type}

/-- Sweeps over the vertices until one moves nothing, but at most `ceiling` of them. -/
def sweepUpTo (M : Machine σ) (order : List ℕ) : (ceiling : ℕ) → σ → LocalMoving
  | 0, s => ⟨M.assignment s, M.moves s, 0, false, M.gain s⟩
  | ceiling + 1, s =>
    let next := order.foldl M.visit s
    if M.moves next = M.moves s then ⟨M.assignment next, M.moves next, 1, true, M.gain next⟩
    else
      let rest := M.sweepUpTo order ceiling next
      { rest with sweeps := rest.sweeps + 1 }

/-- A run of at most `ceiling` sweeps; a graph without calls is left alone. -/
def run (M : Machine σ) (order : List ℕ) (total : ℕ) (s : σ) (ceiling : ℕ) : LocalMoving :=
  if total = 0 then ⟨M.assignment s, M.moves s, 0, true, M.gain s⟩ else M.sweepUpTo order ceiling s

/-- Two machines keep in step along a relation of their states: what can be read off is the same, and
visits keep it so. -/
structure InStep (M : Machine σ) (N : Machine τ) (order : List ℕ) (R : σ → τ → Prop) : Prop where
  assignment_eq : ∀ {s t}, R s t → M.assignment s = N.assignment t
  moves_eq : ∀ {s t}, R s t → M.moves s = N.moves t
  gain_eq : ∀ {s t}, R s t → M.gain s = N.gain t
  visit : ∀ {s t v}, R s t → v ∈ order → R (M.visit s v) (N.visit t v)

namespace InStep

variable {M : Machine σ} {N : Machine τ} {order : List ℕ} {R : σ → τ → Prop} {s : σ} {t : τ}

theorem foldl_visit (h : InStep M N order R) : ∀ {l : List ℕ} {s : σ} {t : τ}, (∀ v ∈ l, v ∈ order) →
    R s t → R (l.foldl M.visit s) (l.foldl N.visit t)
  | [], _, _, _, hst => hst
  | v :: l, _, _, hl, hst => by
    rw [List.forall_mem_cons] at hl
    rw [List.foldl_cons, List.foldl_cons]
    exact h.foldl_visit hl.2 (h.visit hst hl.1)

theorem sweepUpTo_eq (h : InStep M N order R) : ∀ (k : ℕ) {s : σ} {t : τ}, R s t →
    M.sweepUpTo order k s = N.sweepUpTo order k t
  | 0, _, _, hst => by
    rw [sweepUpTo, sweepUpTo, h.assignment_eq hst, h.moves_eq hst, h.gain_eq hst]
  | k + 1, _, _, hst => by
    have hnext := h.foldl_visit (fun _ hv => hv) hst
    rw [sweepUpTo, sweepUpTo, h.sweepUpTo_eq k hnext, h.assignment_eq hnext, h.moves_eq hnext,
      h.gain_eq hnext, h.moves_eq hst]

/-- **Machines that keep in step give the same result.** -/
theorem run_eq (h : InStep M N order R) (hst : R s t) (total k : ℕ) :
    M.run order total s k = N.run order total t k := by
  rw [run, run, h.sweepUpTo_eq k hst, h.assignment_eq hst, h.moves_eq hst, h.gain_eq hst]

end InStep

/-- Local moving with its tables. -/
def moving (view : LinkView) : Machine Moving where
  visit := Moving.visit view
  assignment := Moving.assignment
  moves := Moving.moves
  gain := Moving.gain

theorem sweepUpTo_moving (view : LinkView) : ∀ (k : ℕ) (s : Moving),
    (moving view).sweepUpTo view.vertexList k s = LocalMoving.sweepUpTo view k s
  | 0, _ => rfl
  | k + 1, s => by
    rw [sweepUpTo, sweepUpTo_moving view k, LocalMoving.sweepUpTo]
    rfl

theorem run_moving (view : LinkView) (a : Assignment) (k : ℕ) :
    (moving view).run view.vertexList view.total (.start view a) k = LocalMoving.run view a k := by
  rw [run, sweepUpTo_moving, LocalMoving.run]
  rfl

end Machine

namespace CallGraph

variable {g : CallGraph} {a : Assignment} {u v c d : ℕ}

/-! ## What the labels say about a vertex -/

/-- The members of the community `c` other than `v`. -/
def companions (a : Assignment) (v c : ℕ) : List ℕ := (a.members c).filter (· ≠ v)

/-- The calls between `v` and the other members of `c`, in either direction. -/
def weightTo (g : CallGraph) (a : Assignment) (v c : ℕ) : ℕ :=
  sumOver (fun u => g.weight v u + g.weight u v) (companions a v c)

/-- The degrees of the other members of `c`. -/
def degreesOf (g : CallGraph) (a : Assignment) (v c : ℕ) : ℕ := sumOver g.degree (companions a v c)

/-- What it is worth to `v` to be in `c`: `2m · e(v, c) − k · σ`. -/
def merit (g : CallGraph) (a : Assignment) (v c : ℕ) : ℤ :=
  2 * g.totalWeight * g.weightTo a v c - g.degree v * g.degreesOf a v c

/-- The community of `v` and those of its neighbours, each once. -/
def around (g : CallGraph) (a : Assignment) (v : ℕ) : List ℕ :=
  a.identifiers.filter fun c => c = a.labelOf v || 0 < g.weightTo a v c

/-- Whether `d` is better for `v` than `c`: worth more, or worth as much and named before it. -/
def Beats (g : CallGraph) (a : Assignment) (v d c : ℕ) : Prop :=
  g.merit a v c < g.merit a v d
    ∨ g.merit a v d = g.merit a v c ∧ KeyOrder.before (g.name d) (g.name c) = true

instance (g : CallGraph) (a : Assignment) (v d c : ℕ) : Decidable (g.Beats a v d c) :=
  inferInstanceAs (Decidable (_ ∨ _ ∧ _))

/-- The community around `v` that none around it beats. -/
def choice (g : CallGraph) (a : Assignment) (v : ℕ) : ℕ :=
  ((g.around a v).find? fun c => (g.around a v).all fun d => !decide (g.Beats a v d c)).getD
    (a.labelOf v)

/-! ## The plain form -/

/-- The labels, the moves made and what they are worth. -/
structure Labelled where
  assignment : Assignment
  moves : ℕ
  gain : ℤ

/-- The visit of a vertex, from the labels alone. -/
def plainVisit (g : CallGraph) (s : Labelled) (v : ℕ) : Labelled :=
  let stay := g.merit s.assignment v (s.assignment.labelOf v)
  let chosen := g.choice s.assignment v
  if stay < g.merit s.assignment v chosen then
    ⟨s.assignment.relabel v chosen, s.moves + 1, s.gain + (g.merit s.assignment v chosen - stay)⟩
  else s

/-- Local moving in its plain form. -/
def plainMachine (g : CallGraph) : Machine Labelled where
  visit := g.plainVisit
  assignment := Labelled.assignment
  moves := Labelled.moves
  gain := Labelled.gain

/-- Local moving from the labels alone, for at most `maxSweeps` sweeps. -/
def plainRun (g : CallGraph) (a : Assignment) (maxSweeps : ℕ) : LocalMoving :=
  g.plainMachine.sweepUpTo g.vertexList maxSweeps ⟨a, 0, 0⟩

/-! ## The plain form chooses the best community -/

theorem sumOver_companions (h : a.size = g.vertexCount) (f : ℕ → ℕ) (v c : ℕ) :
    sumOver f (companions a v c) = ∑ u ∈ g.vertexSet.erase v, if a.labelOf u = c then f u else 0 := by
  rw [companions, members, List.filter_filter, sumOver_eq_sum_map, sum_filter_map, sum_map_range, h,
    ← filter_ne', sum_filter, vertexSet]
  refine sum_congr rfl fun u _ => ?_
  by_cases hu : u = v <;> simp [hu]

theorem weightTo_eq_reach (h : a.size = g.vertexCount) (v c : ℕ) :
    g.weightTo a v c = g.reach a v c := sumOver_companions h _ v c

theorem merit_eq_pull (h : a.size = g.vertexCount) (v c : ℕ) : g.merit a v c = g.pull a v c := by
  rw [merit, weightTo_eq_reach h, degreesOf, sumOver_companions h, pull_eq]
  rfl

/-- A vertex shares calls with a community when one of its other members is a neighbour. -/
theorem reach_pos_iff :
    0 < g.reach a v c ↔ ∃ u, u ≠ v ∧ 0 < g.linkWeight v u ∧ a.labelOf u = c := by
  rw [reach, sum_pos_iff]
  constructor
  · rintro ⟨u, hu, hpos⟩
    split at hpos
    · exact ⟨u, ne_of_mem_erase hu, hpos, ‹_›⟩
    · exact absurd hpos (lt_irrefl 0)
  · rintro ⟨u, hne, hpos, hlabel⟩
    refine ⟨u, mem_erase.mpr ⟨hne, mem_vertexSet.mpr (lt_of_linkWeight_pos hpos)⟩, ?_⟩
    rwa [if_pos hlabel]

theorem mem_around (h : a.Valid g.vertexCount) (hv : v < g.vertexCount) :
    c ∈ g.around a v ↔ g.Faces a v c := by
  rw [around, List.mem_filter, Bool.or_eq_true, decide_eq_true_eq, decide_eq_true_eq,
    weightTo_eq_reach h.1, reach_pos_iff, h.mem_identifiers, Faces]
  refine and_iff_right_of_imp ?_
  rintro (rfl | ⟨u, -, hpos, rfl⟩)
  · exact ⟨v, hv, rfl⟩
  · exact ⟨u, lt_of_linkWeight_pos hpos, rfl⟩

/-- The best community is the one that none beats. -/
theorem best_iff_unbeaten (h : a.Valid g.vertexCount) (hv : v < g.vertexCount) :
    Moving.Best g a v c ↔ c ∈ g.around a v ∧ ∀ d ∈ g.around a v, ¬ g.Beats a v d c := by
  have hbeats : ∀ d, g.Faces a v c → g.Faces a v d → (¬ g.Beats a v d c
      ↔ g.pull a v d ≤ g.pull a v c ∧ (g.pull a v d = g.pull a v c → g.rank c ≤ g.rank d)) := by
    intro d hc hd
    rw [Beats, merit_eq_pull h.1, merit_eq_pull h.1, not_or, not_lt, not_and,
      ← rank_lt_iff (hd.lt h hv) (hc.lt h hv), not_lt]
  rw [mem_around h hv]
  constructor
  · intro hbest
    refine ⟨hbest.faces, fun d hd => ?_⟩
    have hd := (mem_around h hv).mp hd
    exact (hbeats d hbest.faces hd).mpr ⟨hbest.pull_le d hd, hbest.rank_le d hd⟩
  · rintro ⟨hc, hunbeaten⟩
    have hle := fun d hd => (hbeats d hc hd).mp (hunbeaten d ((mem_around h hv).mpr hd))
    exact ⟨hc, fun d hd => (hle d hd).1, fun d hd => (hle d hd).2⟩

/-- **The plain form chooses the best community.** -/
theorem best_choice (h : a.Valid g.vertexCount) (hv : v < g.vertexCount) :
    Moving.Best g a v (g.choice a v) := by
  obtain ⟨c, hc, -⟩ := Moving.exists_best h hv
  obtain ⟨hmem, hunbeaten⟩ := (best_iff_unbeaten h hv).mp hc
  have hfound : ((g.around a v).find? fun c =>
      (g.around a v).all fun d => !decide (g.Beats a v d c)).isSome = true :=
    List.find?_isSome.mpr ⟨c, hmem, by simpa using hunbeaten⟩
  obtain ⟨e, he⟩ := Option.isSome_iff_exists.mp hfound
  have hnone : ∀ d ∈ g.around a v, ¬ g.Beats a v d e := by simpa using List.find?_some he
  rw [choice, he, Option.getD_some]
  exact (best_iff_unbeaten h hv).mpr ⟨List.mem_of_find?_eq_some he, hnone⟩

/-! ## The tables change nothing -/

/-- The labels and counters of a state with tables. -/
def Labelled.ofMoving (s : Moving) : Labelled := ⟨s.assignment, s.moves, s.gain⟩

theorem plainVisit_ofMoving {s : Moving} (h : s.Sound g) (hv : v < g.vertexCount) :
    g.plainVisit (.ofMoving s) v = .ofMoving (Moving.visit g.linkView s v) := by
  obtain ⟨c, hc, hvisit⟩ := h.visit_eq hv
  have hchoice : g.choice s.assignment v = c := (best_choice h.valid hv).unique hc h.valid hv
  rw [hvisit, plainVisit]
  simp only [Labelled.ofMoving, hchoice, merit_eq_pull h.valid.1]
  split <;> rfl

theorem inStep_plain (g : CallGraph) : Machine.InStep (.moving g.linkView) g.plainMachine g.vertexList
    fun s t => s.Sound g ∧ t = .ofMoving s where
  assignment_eq h := h.2 ▸ rfl
  moves_eq h := h.2 ▸ rfl
  gain_eq h := h.2 ▸ rfl
  visit := by
    rintro s _ v ⟨hs, rfl⟩ hv
    have hv := List.mem_range.mp hv
    exact ⟨(hs.visit hv).1, plainVisit_ofMoving hs hv⟩

/-- **Local moving is its plain form**, where there are calls. -/
theorem run_eq_plainRun (hm : 0 < g.totalWeight) (ha : a.Valid g.vertexCount) (k : ℕ) :
    LocalMoving.run g.linkView a k = g.plainRun a k := by
  rw [LocalMoving.run_of_totalWeight_pos hm, ← Machine.sweepUpTo_moving, linkView_vertexList, plainRun]
  exact (inStep_plain g).sweepUpTo_eq k ⟨Moving.sound_start ha, rfl⟩

/-! ## Without calls -/

theorem merit_of_totalWeight (h : g.totalWeight = 0) (hv : v < g.vertexCount) (c : ℕ) :
    g.merit a v c = 0 := by
  have hsum := sum_degree g
  rw [h] at hsum
  rw [merit, h, sum_eq_zero_iff.mp hsum v (mem_vertexSet.mpr hv)]
  simp

theorem foldl_plainVisit_of_totalWeight (h : g.totalWeight = 0) (a : Assignment) :
    ∀ {l : List ℕ}, (∀ v ∈ l, v < g.vertexCount) → l.foldl g.plainVisit ⟨a, 0, 0⟩ = ⟨a, 0, 0⟩
  | [], _ => rfl
  | v :: l, hl => by
    rw [List.forall_mem_cons] at hl
    have hvisit : g.plainVisit ⟨a, 0, 0⟩ v = ⟨a, 0, 0⟩ := by
      rw [plainVisit, merit_of_totalWeight h hl.1, merit_of_totalWeight h hl.1]
      rfl
    rw [List.foldl_cons, hvisit, foldl_plainVisit_of_totalWeight h a hl.2]

/-- **Without calls no vertex has a reason to move**: the plain form makes one sweep for nothing, if it may
make one at all. -/
theorem plainRun_of_totalWeight (h : g.totalWeight = 0) (a : Assignment) (k : ℕ) :
    g.plainRun a k = ⟨a, 0, min 1 k, decide (0 < k), 0⟩ := by
  have hsweep : g.vertexList.foldl g.plainMachine.visit ⟨a, 0, 0⟩ = ⟨a, 0, 0⟩ :=
    foldl_plainVisit_of_totalWeight h a fun v hv => List.mem_range.mp hv
  cases k with
  | zero => rfl
  | succ k =>
    rw [plainRun, Machine.sweepUpTo, hsweep, Nat.min_eq_left (Nat.le_add_left 1 k),
      decide_eq_true k.succ_pos]
    rfl

end CallGraph

end CallCommunities
