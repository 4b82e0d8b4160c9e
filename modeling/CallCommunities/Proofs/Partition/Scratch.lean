import CallCommunities.Proofs.Partition.Listings

/-!
# Proofs/Partition/Scratch — one buffer for all visits

Local moving need not set up the list of contacts of a vertex anew.  One buffer with a cell for every
community serves all visits: a visit finds it blank, counts into it, reads it, and blanks the cells it
has touched.  While it is counted into, the buffer holds the contacts counted so far (`Holds`), and
**clearing it leaves nothing behind** (`Holds.clear_eq`).  A vertex gives its degree back to the sum of the
community where it ends up, its own when it stays (`Bench.modify_sums`).  So every visit does what it does
without the buffer (`Bench.visit_resting`), and local moving with its tables, with its buffer and with the
neighbours listed in any order is local moving by its definition (`moving_is_plain`), save that without
calls there are no sweeps.
-/

namespace CallCommunities

open CallGraph Assignment

/-! ## The buffer -/

/-- A buffer for the weight between a vertex and each community around it. -/
structure Buffer where
  weight : Array ℕ
  seen : Array Bool
  /-- The communities seen, in the order in which they were first seen. -/
  touched : List ℕ
deriving DecidableEq

namespace Buffer

variable {n c : ℕ} {near : List (ℕ × ℕ)} {b : Buffer}

/-- The buffer for `n` communities with nothing in it. -/
def blank (n : ℕ) : Buffer := ⟨.replicate n 0, .replicate n false, []⟩

/-- Notes that a community has been seen. -/
def touch (b : Buffer) (c : ℕ) : Buffer :=
  if b.seen.getD c false then b
  else { b with seen := b.seen.modify c fun _ => true, touched := b.touched ++ [c] }

/-- Adds to the weight of a community. -/
def count (b : Buffer) (c w : ℕ) : Buffer :=
  { b.touch c with weight := (b.touch c).weight.modify c (· + w) }

/-- Counts the contacts of `v`, its own community first. -/
def collect (view : LinkView) (a : Assignment) (v : ℕ) (b : Buffer) : Buffer :=
  (view.linksOf v).foldl (fun b (u, w) => b.count (a.labelOf u) w) (b.touch (a.labelOf v))

/-- The weight counted for a community. -/
def weightTo (b : Buffer) (c : ℕ) : ℕ := b.weight.getD c 0

/-- The communities seen, with their weights. -/
def candidates (b : Buffer) : List (ℕ × ℕ) := b.touched.map fun c => (c, b.weightTo c)

/-- Blanks the cells of a community. -/
def wipe (b : Buffer) (c : ℕ) : Buffer :=
  { b with weight := b.weight.modify c fun _ => 0, seen := b.seen.modify c fun _ => false }

/-- Blanks the cells of the communities seen. -/
def clear (b : Buffer) : Buffer := { b.touched.foldl wipe b with touched := [] }

/-! ## What it holds -/

/-- The buffer holds the contacts `near`, all of them with communities below `n`. -/
structure Holds (n : ℕ) (near : List (ℕ × ℕ)) (b : Buffer) : Prop where
  size_weight : b.weight.size = n
  size_seen : b.seen.size = n
  touched_eq : b.touched = near.map (·.1)
  seen_iff : ∀ c < n, b.seen.getD c false = true ↔ c ∈ near.map (·.1)
  weightTo_eq : ∀ c < n, b.weightTo c = recorded near c
  nodup : (near.map (·.1)).Nodup
  lt : ∀ c ∈ near.map (·.1), c < n

theorem holds_blank (n : ℕ) : Holds n [] (blank n) where
  size_weight := Array.size_replicate
  size_seen := Array.size_replicate
  touched_eq := rfl
  seen_iff c _ := by simp only [blank, getD_replicate, List.map_nil, List.not_mem_nil, Bool.false_eq_true]
  weightTo_eq c _ := getD_replicate n c 0
  nodup := List.nodup_nil
  lt c hc := absurd hc List.not_mem_nil

theorem Holds.touch (h : Holds n near b) (hc : c < n) : Holds n (Moving.tally c 0 near) (b.touch c) := by
  have hkeys := Moving.map_fst_tally c 0 near
  have hrec : ∀ d, recorded (Moving.tally c 0 near) d = recorded near d := fun d => by
    rw [Moving.recorded_tally, ite_self, Nat.add_zero]
  have hlt : ∀ d ∈ (Moving.tally c 0 near).map (·.1), d < n := by
    intro d hd
    rw [hkeys] at hd
    split at hd
    · exact h.lt d hd
    · rcases List.mem_append.mp hd with hd | hd
      · exact h.lt d hd
      · exact List.mem_singleton.mp hd ▸ hc
  unfold Buffer.touch
  split
  · rename_i hseen
    rw [if_pos ((h.seen_iff c hc).mp hseen)] at hkeys
    refine ⟨h.size_weight, h.size_seen, hkeys ▸ h.touched_eq, hkeys ▸ h.seen_iff, fun d hd => ?_,
      Moving.nodup_tally h.nodup, hlt⟩
    rw [hrec, h.weightTo_eq d hd]
  · rename_i hseen
    rw [if_neg ((h.seen_iff c hc).not.mp hseen)] at hkeys
    refine ⟨h.size_weight, ?_, ?_, fun d hd => ?_, fun d hd => ?_, Moving.nodup_tally h.nodup, hlt⟩
    · rw [Array.size_modify, h.size_seen]
    · rw [hkeys, h.touched_eq]
    · rw [getD_modify _ _ _ _ (h.size_seen.symm ▸ hd), hkeys, List.mem_append,
        List.mem_singleton, ← h.seen_iff d hd]
      by_cases hcd : c = d
      · simp [hcd]
      · simp [hcd, Ne.symm hcd]
    · rw [hrec]
      exact h.weightTo_eq d hd

theorem Holds.count (h : Holds n near b) (hc : c < n) (w : ℕ) :
    Holds n (Moving.tally c w near) (b.count c w) := by
  have ht := h.touch hc
  have hkeys : (Moving.tally c w near).map (·.1) = (Moving.tally c 0 near).map (·.1) := by
    rw [Moving.map_fst_tally, Moving.map_fst_tally]
  refine ⟨?_, ht.size_seen, hkeys ▸ ht.touched_eq, hkeys ▸ ht.seen_iff, fun d hd => ?_,
    hkeys ▸ ht.nodup, hkeys ▸ ht.lt⟩
  · rw [Buffer.count, Array.size_modify, ht.size_weight]
  · have hweight := ht.weightTo_eq d hd
    rw [Moving.recorded_tally, ite_self, Nat.add_zero] at hweight
    rw [Moving.recorded_tally, ← hweight, weightTo, Buffer.count,
      getD_modify _ _ _ _ (ht.size_weight.symm ▸ hd)]
    split <;> rfl

theorem Holds.foldl_count (f : ℕ → ℕ) : ∀ (links : List (ℕ × ℕ)) {near : List (ℕ × ℕ)} {b : Buffer},
    Holds n near b → (∀ p ∈ links, f p.1 < n) →
    Holds n (links.foldl (fun near p => Moving.tally (f p.1) p.2 near) near)
      (links.foldl (fun b p => b.count (f p.1) p.2) b)
  | [], _, _, h, _ => h
  | p :: links, _, _, h, hlt => by
    rw [List.forall_mem_cons] at hlt
    exact (h.count hlt.1 p.2).foldl_count f links hlt.2

/-- **What the buffer holds can be read off it.** -/
theorem Holds.candidates_eq (h : Holds n near b) : b.candidates = near := by
  rw [candidates, h.touched_eq, List.map_map]
  refine (List.map_congr_left fun p hp => ?_).trans (List.map_id near)
  have hkey : p.1 ∈ near.map (·.1) := List.mem_map.mpr ⟨p, hp, rfl⟩
  rw [Function.comp_apply, h.weightTo_eq _ (h.lt _ hkey), ((Moving.mem_iff_recorded h.nodup).mp hp).2]
  rfl

/-! ## Clearing it -/

/-- Wiping is enough when all cells but those wiped are blank. -/
theorem foldl_wipe : ∀ (l : List ℕ) {b : Buffer}, b.weight.size = n → b.seen.size = n →
    (∀ c < n, c ∉ l → b.weight.getD c 0 = 0 ∧ b.seen.getD c false = false) →
    l.foldl wipe b = { blank n with touched := b.touched }
  | [], b, hw, hs, h => by
    have hweight : b.weight = .replicate n 0 := ext_getD 0 (by simp [hw]) fun i hi => by
      rw [(h i (hw ▸ hi) List.not_mem_nil).1, getD_replicate]
    have hseen : b.seen = .replicate n false := ext_getD false (by simp [hs]) fun i hi => by
      rw [(h i (hs ▸ hi) List.not_mem_nil).2, getD_replicate]
    rw [List.foldl_nil, blank, ← hweight, ← hseen]
  | d :: l, b, hw, hs, h => by
    rw [List.foldl_cons, foldl_wipe l (by simp [wipe, hw]) (by simp [wipe, hs])]
    · rfl
    · intro c hc hcl
      rw [wipe, getD_modify _ _ _ _ (hw.symm ▸ hc), getD_modify _ _ _ _ (hs.symm ▸ hc)]
      split
      · exact ⟨rfl, rfl⟩
      · exact h c hc fun hmem => (List.mem_cons.mp hmem).elim (fun heq => absurd heq.symm ‹_›) hcl

/-- **Clearing leaves nothing behind.** -/
theorem Holds.clear_eq (h : Holds n near b) : b.clear = blank n := by
  rw [clear, foldl_wipe b.touched h.size_weight h.size_seen]
  · rfl
  · intro c hc hcl
    rw [h.touched_eq] at hcl
    have hnone : recorded near c = 0 := by
      rw [recorded, List.lookup_eq_none_iff.mpr fun p hp => ?_, Option.getD_none]
      exact bne_iff_ne.mpr fun heq => hcl (List.mem_map.mpr ⟨p, hp, heq.symm⟩)
    exact ⟨(h.weightTo_eq c hc).trans hnone,
      Bool.eq_false_iff.mpr fun hseen => hcl ((h.seen_iff c hc).mp hseen)⟩

end Buffer

/-! ## Local moving with the buffer -/

/-- What local moving carries from vertex to vertex, the buffer included. -/
structure Bench where
  assignment : Assignment
  sums : Array ℕ
  buffer : Buffer
  moves : ℕ
  gain : ℤ

namespace Bench

open Moving

variable {view : LinkView} {g : CallGraph} {a : Assignment} {s : Moving} {v : ℕ}

/-- The end of a visit, when staying and the best community have been appraised: the degree of `v`, taken
off the sum of its community, goes to that of the community where it ends up, and the buffer is cleared. -/
def settle (view : LinkView) (s : Bench) (v : ℕ) (stay : ℤ) (best : ℕ × ℤ) : Bench :=
  let own := s.assignment.labelOf v
  let target := if stay < best.2 then best.1 else own
  let sums := (s.sums.modify own (· - view.degree v)).modify target (· + view.degree v)
  if target = own then { s with sums, buffer := s.buffer.clear }
  else ⟨s.assignment.relabel v target, sums, s.buffer.clear, s.moves + 1, s.gain + (best.2 - stay)⟩

/-- The visit of one vertex. -/
def visit (view : LinkView) (s : Bench) (v : ℕ) : Bench :=
  let own := s.assignment.labelOf v
  let others := s.sums.modify own (· - view.degree v)
  let buffer := s.buffer.collect view s.assignment v
  let appraise (c weight : ℕ) : ℤ := worth view (view.degree v) weight (others.getD c 0)
  let stay := appraise own (buffer.weightTo own)
  let best := (buffer.candidates.map fun (c, weight) => (c, appraise c weight)).foldl (prefer view)
    (own, stay)
  settle view { s with buffer } v stay best

/-- A state of local moving with a blank buffer for `n` communities. -/
def resting (n : ℕ) (s : Moving) : Bench := ⟨s.assignment, s.sums, .blank n, s.moves, s.gain⟩

/-- Local moving with the buffer. -/
def machine (view : LinkView) : Machine Bench where
  visit := visit view
  assignment := Bench.assignment
  moves := Bench.moves
  gain := Bench.gain

/-- Local moving with the buffer from a partition, for at most `maxSweeps` sweeps. -/
def run (view : LinkView) (a : Assignment) (maxSweeps : ℕ) : LocalMoving :=
  (machine view).run view.vertexList view.total (resting view.size (.start view a)) maxSweeps

/-- A vertex that stays gives its degree back to the sum it was taken off. -/
theorem modify_sums (h : s.Sound g) (hv : v < g.vertexCount) :
    (s.sums.modify (s.assignment.labelOf v) (· - g.degree v)).modify (s.assignment.labelOf v)
      (· + g.degree v) = s.sums := by
  refine ext_getD 0 (by simp) fun c hc => ?_
  have hc : c < g.vertexCount := by simpa [h.size_sums] using hc
  have hsize : c < s.sums.size := h.size_sums.symm ▸ hc
  rw [getD_modify _ _ _ _ (by simpa using hsize), h.getD_others hv hc, h.getD_sums c hc,
    degreeSum_eq h.valid hv]
  split <;> rfl

theorem holds_collect (h : view.Lists g) (ha : a.Valid g.vertexCount) (hv : v < g.vertexCount) :
    Buffer.Holds g.vertexCount (contacts view a v)
      ((Buffer.blank g.vertexCount).collect view a v) := by
  refine ((Buffer.holds_blank g.vertexCount).touch (ha.labelOf_lt hv)).foldl_count a.labelOf
    (view.linksOf v) fun p hp => ha.labelOf_lt ?_
  have hp := (h.linksOf_perm v).mem_iff.mp hp
  rw [linkView_linksOf] at hp
  obtain ⟨-, hpos, hw⟩ := mem_incident.mp hp
  exact lt_of_linkWeight_pos (hw ▸ hpos)

/-- What staying is worth, read off the weights counted. -/
theorem stay_eq_worth (view : LinkView) (s : Moving) (v : ℕ)
    (hmem : s.assignment.labelOf v ∈ (contacts view s.assignment v).map (·.1)) :
    s.stay view v = worth view (view.degree v)
      (recorded (contacts view s.assignment v) (s.assignment.labelOf v))
      ((s.sums.modify (s.assignment.labelOf v) (· - view.degree v)).getD (s.assignment.labelOf v) 0) := by
  have hown := (mem_iff_recorded (nodup_contacts view s.assignment v)).mpr ⟨hmem, rfl⟩
  have hstay := (lookup_eq_some_iff_mem (nodup_appraisals view s v)).mpr
    (List.mem_map.mpr ⟨_, hown, rfl⟩)
  rw [stay, hstay, Option.getD_some]

/-- **A visit with a blank buffer does what the visit without it does, and leaves the buffer blank.** -/
theorem visit_resting (h : view.Lists g) (hs : s.Sound g) (hv : v < g.vertexCount) :
    visit view (resting g.vertexCount s) v = resting g.vertexCount (Moving.visit view s v) := by
  have hholds := holds_collect h hs.valid hv
  have hlabel := hs.valid.labelOf_lt hv
  have hmem : s.assignment.labelOf v ∈ (contacts view s.assignment v).map (·.1) :=
    ((h.contacts_perm s.assignment v).map _).mem_iff.mpr (mem_contacts.mpr (.inl rfl))
  have hstay := stay_eq_worth view s v hmem
  rw [← hholds.weightTo_eq _ hlabel] at hstay
  have hvisit : visit view (resting g.vertexCount s) v
      = settle view ⟨s.assignment, s.sums, (Buffer.blank g.vertexCount).collect view s.assignment v,
        s.moves, s.gain⟩ v (s.stay view v) (s.best view v) := by
    rw [best, appraisals, hstay, ← hholds.candidates_eq]
    rfl
  rw [hvisit, settle, Moving.visit_eq_best, hholds.clear_eq, h.stay_eq, h.best_eq hs hv, h.degree_eq,
    linkView_degree]
  rcases hs.visit_accepted hv with ⟨-, hle⟩ | haccepted
  · rw [if_neg (not_lt.mpr hle), if_neg (not_lt.mpr hle), if_pos rfl]
    exact congrArg (Bench.mk _ · _ _ _) (modify_sums hs hv)
  · rw [if_pos haccepted.stay_lt_best, if_pos haccepted.stay_lt_best, if_neg haccepted.best_ne]
    rfl

theorem inStep (h : view.Lists g) : Machine.InStep (machine view) (.moving g.linkView) g.vertexList
    fun s t => t.Sound g ∧ s = resting g.vertexCount t where
  assignment_eq hst := hst.2 ▸ rfl
  moves_eq hst := hst.2 ▸ rfl
  gain_eq hst := hst.2 ▸ rfl
  visit := by
    rintro _ t v ⟨ht, rfl⟩ hv
    have hv := List.mem_range.mp hv
    refine ⟨(ht.visit hv).1, (visit_resting h ht hv).trans ?_⟩
    rw [h.visit_eq ht hv]
    rfl

/-- **Nothing leaks through the buffer.** -/
theorem run_eq (h : view.Lists g) (ha : a.Valid g.vertexCount) (k : ℕ) :
    run view a k = LocalMoving.run g.linkView a k := by
  have hsize : view.size = g.vertexCount := by
    rw [← linkView_size, LinkView.size, LinkView.size, h.degrees_eq]
  rw [run, ← Machine.run_moving, h.vertexList_eq, linkView_vertexList, h.total_eq, h.start_eq, hsize]
  exact (inStep h).run_eq ⟨sound_start ha, rfl⟩ _ k

end Bench

variable {g : CallGraph} {a : Assignment}

/-- **Local moving is its definition.**  With the tables kept from move to move, with one buffer for all
visits, and with the neighbours listed in any order it gives the labels, the moves, the sweeps, the
convergence and the gain that follow from adding up anew for every vertex.  A graph without calls is not
swept at all; sweeps would have moved nothing. -/
theorem moving_is_plain (ha : a.Valid g.vertexCount) (k : ℕ) :
    (0 < g.totalWeight → LocalMoving.run g.linkView a k = g.plainRun a k)
    ∧ (g.totalWeight = 0 → LocalMoving.run g.linkView a k = ⟨a, 0, 0, true, 0⟩
        ∧ g.plainRun a k = ⟨a, 0, min 1 k, decide (0 < k), 0⟩)
    ∧ ∀ view : LinkView, view.Lists g →
        LocalMoving.run view a k = LocalMoving.run g.linkView a k
          ∧ Bench.run view a k = LocalMoving.run g.linkView a k := by
  refine ⟨fun hm => run_eq_plainRun hm ha k, fun hm => ⟨?_, plainRun_of_totalWeight hm a k⟩,
    fun view h => ⟨h.run_eq ha k, Bench.run_eq h ha k⟩⟩
  rw [LocalMoving.run, linkView_total, if_pos hm]

/-- A vertex that neither calls nor is called. -/
def CallGraph.lone : CallGraph := .ofArcs ⟨["a"], by decide⟩ []

/-- With the neighbours listed the other way round the tadpole falls into the same communities. -/
theorem moving_is_plain_tadpole :
    0 < CallGraph.tadpole.totalWeight
    ∧ CallGraph.tadpole.linkView.reversed ≠ CallGraph.tadpole.linkView
    ∧ CallGraph.tadpole.plainRun ⟨#[0, 1, 2, 3]⟩ 100 = ⟨⟨#[1, 1, 1, 3]⟩, 2, 2, true, 60⟩
    ∧ LocalMoving.run CallGraph.tadpole.linkView.reversed ⟨#[0, 1, 2, 3]⟩ 100
      = ⟨⟨#[1, 1, 1, 3]⟩, 2, 2, true, 60⟩
    ∧ Bench.run CallGraph.tadpole.linkView.reversed ⟨#[0, 1, 2, 3]⟩ 100
      = ⟨⟨#[1, 1, 1, 3]⟩, 2, 2, true, 60⟩
    ∧ LocalMoving.run CallGraph.lone.linkView ⟨#[0]⟩ 100 = ⟨⟨#[0]⟩, 0, 0, true, 0⟩ := by
  have hvalid : Assignment.Valid CallGraph.tadpole.vertexCount ⟨#[0, 1, 2, 3]⟩ := ⟨rfl, by decide +kernel⟩
  have hlone : Assignment.Valid CallGraph.lone.vertexCount ⟨#[0]⟩ := ⟨rfl, by decide +kernel⟩
  have hpos : 0 < CallGraph.tadpole.totalWeight := by decide +kernel
  have hplain : CallGraph.tadpole.plainRun ⟨#[0, 1, 2, 3]⟩ 100 = ⟨⟨#[1, 1, 1, 3]⟩, 2, 2, true, 60⟩ := by
    decide +kernel
  obtain ⟨hcalls, -, hviews⟩ := moving_is_plain hvalid 100
  obtain ⟨htables, hbuffer⟩ := hviews _ (lists_reversed CallGraph.tadpole)
  obtain ⟨-, hidle, -⟩ := moving_is_plain hlone 100
  exact ⟨hpos, by decide +kernel, hplain, htables.trans ((hcalls hpos).trans hplain),
    hbuffer.trans ((hcalls hpos).trans hplain), (hidle rfl).1⟩

/-- Where nothing is called no sweep is made, and the plain form makes one. -/
theorem lone_not_swept :
    Assignment.Valid CallGraph.lone.vertexCount ⟨#[0]⟩
    ∧ (LocalMoving.run CallGraph.lone.linkView ⟨#[0]⟩ 1).sweeps = 0
    ∧ (CallGraph.lone.plainRun ⟨#[0]⟩ 1).sweeps = 1 :=
  ⟨⟨rfl, by decide +kernel⟩, by decide +kernel, by decide +kernel⟩

end CallCommunities
