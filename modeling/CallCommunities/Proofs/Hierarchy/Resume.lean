import CallCommunities.Proofs.Hierarchy.Warnings

/-!
# Proofs/Hierarchy/Resume — stopping and going on is running through

A run with the ceiling `r + s` is a run with the ceiling `r` and then one with the ceiling `s` **on
the coarse graph of what the first one reached** (`reached_add`, `levels_add`, `warnings_add`).  That
is the graph on which `redetect` starts: the partition written down is read back as it was, it is
canonical already, and coarsening by it gives the top graph of the first run.
-/

namespace CallCommunities

open Assignment CallGraph

namespace Hierarchy

variable {settings : Settings} {g : CallGraph} {a : Assignment} {r s : ℕ}

/-! ## The ceiling is not looked at on the way -/

theorem next?_upTo (settings : Settings) (n : ℕ) (g : CallGraph) :
    next? (settings.upTo n) g = next? settings g := rfl

theorem climb_upTo (settings : Settings) (n r depth : ℕ) (g : CallGraph) (o : Array ℕ) :
    climb (settings.upTo n) r depth g o = climb settings r depth g o := by
  induction r, g using round_induction settings generalizing depth o with
  | zero g => rfl
  | stop r g h =>
    rw [climb_of_none h, climb_of_none ((next?_upTo settings n g).trans h)]
    rfl
  | step r g a h ih =>
    rw [climb_of_some h, climb_of_some ((next?_upTo settings n g).trans h), ih]
    rfl

theorem rounds_upTo (settings : Settings) (n r : ℕ) (g : CallGraph) :
    rounds (settings.upTo n) r g = rounds settings r g := climb_upTo settings n r 0 g _

theorem reached_upTo (settings : Settings) (n r : ℕ) (g : CallGraph) :
    reached (settings.upTo n) r g = reached settings r g := by
  rw [← flatten_rounds, ← flatten_rounds, rounds_upTo]

/-! ## Two runs in a row -/

/-- **What a run with the ceiling `r + s` reaches**, seen from what one with the ceiling `r`
reaches. -/
theorem reached_add (settings : Settings) (s r : ℕ) (g : CallGraph) :
    reached settings (r + s) g = (g.coarsen (reached settings r g)).pullBack g
      (reached settings s (g.coarsen (reached settings r g)).graph) := by
  induction r, g using round_induction settings with
  | zero g =>
    rw [reached_zero, graph_coarsen_singletons, Nat.zero_add,
      pullBack_of_singletons (valid_reached settings s g)]
  | stop r g h =>
    rw [reached_of_none h, reached_of_none h, graph_coarsen_singletons, reached_of_none h,
      pullBack_of_singletons (valid_singletons _)]
  | step r g a h ih =>
    have ha := valid_of_next? h
    have hr := valid_reached settings r (g.coarsen a).graph
    rw [Nat.succ_add, reached_of_some h, reached_of_some h, ih,
      pullBack_pullBack ha hr (valid_reached settings s _), graph_coarsen_pullBack ha hr]

/-- The rounds of a run with the ceiling `r + s`. -/
theorem levels_add (settings : Settings) (s r : ℕ) (g : CallGraph) :
    (rounds settings (r + s) g).levels = (rounds settings r g).levels
      ++ (rounds settings s (rounds settings r g).top).levels := by
  induction r, g using round_induction settings with
  | zero g =>
    rw [Nat.zero_add]
    rfl
  | stop r g h =>
    obtain ⟨hlevels, htop⟩ := levels_of_none h (r + 1)
    rw [hlevels, htop, (levels_of_none h _).1, (levels_of_none h _).1, List.append_nil]
  | step r g a h ih =>
    obtain ⟨hlevels, htop, -⟩ := rounds_of_some h r
    rw [Nat.succ_add, (rounds_of_some h (r + s)).1, hlevels, htop, ih, List.cons_append]

theorem warnings_of_none (hk : 0 < settings.maxIterations) (h : next? settings g = none) (r : ℕ) :
    (rounds settings r g).warnings = [] := by
  rcases r with _ | r
  · have hmerge := (next?_eq_none_iff_not_mergeable hk).mp h
    exact if_pos ((isLocalOptimum_singletons_iff g).mpr hmerge)
  · rw [rounds_of_none h]
    exact passWarnings_eq_nil hk h

/-- **The warnings of a run with the ceiling `r + s`**: those about the first `r` rounds, and then
those of the second run, counted on. -/
theorem warnings_add (hk : 0 < settings.maxIterations) (s r : ℕ) (g : CallGraph) :
    (rounds settings (r + s) g).warnings = (rounds settings r g).roundWarnings
      ++ (rounds settings s (rounds settings r g).top).warnings.map
        fun w => w.deeper (rounds settings r g).levels.length := by
  induction r, g using round_induction settings with
  | zero g =>
    have hfirst : (rounds settings 0 g).roundWarnings = [] := by
      rw [roundWarnings, rounds, climb]
      rcases LocalMoving.isLocalOptimum g.linkView (singletons g.vertexCount) with _ | _ <;> rfl
    have hzero : ∀ l : List Warning, (l.map fun w => w.deeper 0) = l := fun l =>
      (List.map_congr_left fun w _ => w.deeper_zero).trans (List.map_id l)
    rw [hfirst, List.nil_append, Nat.zero_add]
    exact (hzero _).symm
  | stop r g h =>
    rw [(levels_of_none h _).2, roundWarnings, warnings_of_none hk h, warnings_of_none hk h,
      warnings_of_none hk h]
    rfl
  | step r g a h ih =>
    obtain ⟨hlevels, htop, -⟩ := rounds_of_some h r
    rw [Nat.succ_add, (rounds_of_some h (r + s)).2.2, ih, roundWarnings_of_some h, hlevels, htop,
      List.append_assoc, List.map_append, List.map_map, List.length_cons]
    refine congrArg (_ ++ ·) (congrArg (_ ++ ·) (List.map_congr_left fun w _ => ?_))
    rw [Function.comp_apply, Warning.deeper_deeper]

end Hierarchy

/-! ## Going on from what detection wrote down -/

open Hierarchy

/-- Relabelling by lowest names changes nothing where they are the labels. -/
theorem Assignment.Canonical.canonicalize_eq {g : CallGraph} {a : Assignment} (h : Canonical g a) :
    a.canonicalize g.linkView = a := canonicalize_eq_of_sameGroups h (.refl a)

/-- **Stopping and going on is running through.**  Detection up to `a` rounds, and then up to `b`
more from what it wrote down, finds the partition of detection up to `a + b` rounds, with as many
rounds and the same warnings, save that about the ceiling in between.  Where the first detection did
not warn of its ceiling, the second one changes nothing. -/
theorem redetect_detect (settings : Settings) (g : CallGraph) (a b : ℕ) :
    ∃ d, redetect (settings.upTo b) g (detect (settings.upTo a) g).assignment = .ok d
      ∧ d.assignment = (detect (settings.upTo (a + b)) g).assignment
      ∧ d.modularity = (detect (settings.upTo (a + b)) g).modularity
      ∧ (detect (settings.upTo (a + b)) g).levels
        = (detect (settings.upTo a) g).levels + d.levels
      ∧ (1 ≤ settings.maxIterations → (detect (settings.upTo (a + b)) g).warnings
        = (detect (settings.upTo a) g).warnings.filter (fun w => !w.isLevelLimit)
          ++ d.warnings.map fun w => w.deeper (detect (settings.upTo a) g).levels)
      ∧ ((∀ l, .levelLimitReached l ∉ (detect (settings.upTo a) g).warnings) →
        d.levels = 0 ∧ d.assignment = (detect (settings.upTo a) g).assignment) := by
  simp only [detect_eq, rounds_upTo, reached_upTo, Settings.maxLevels_upTo]
  have hcanonical := canonical_reached settings a g
  have hread := ofNames_assignment (rounds settings a g) hcanonical.valid
  have hmerged : mergedFrom (settings.upTo b) g (reached settings a g)
      = reached settings (a + b) g := by
    rw [mergedFrom, reached_upTo, reached_add]
    rfl
  have hrun : rounds (settings.upTo b) (settings.upTo b).maxLevels
      (g.coarsen (reached settings a g)).graph = rounds settings b (rounds settings a g).top := by
    rw [rounds_upTo, top_rounds]
    rfl
  refine ⟨_, redetect_eq _ hread, ?_⟩
  rw [hcanonical.canonicalize_eq, continued, hmerged, hrun]
  refine ⟨rfl, rfl, ?_, fun hk => warnings_add hk b a g, fun hlimit => ?_⟩
  · exact (congrArg List.length (levels_add settings b a g)).trans List.length_append
  · have hnone := next?_top_eq_none_of_notMem hlimit
    refine ⟨congrArg List.length (levels_of_none hnone b).1, ?_⟩
    rw [reached_add, ← top_rounds, reached_of_none hnone, top_rounds,
      pullBack_singletons hcanonical.valid]
    rfl

theorem redetect_detect_square :
    1 ≤ Settings.default.maxIterations
    ∧ (∃ d, redetect (Settings.default.upTo 1) square
        (detect (Settings.default.upTo 1) square).assignment = .ok d
      ∧ (detect (Settings.default.upTo 2) square).warnings
        = (detect (Settings.default.upTo 1) square).warnings.filter (fun w => !w.isLevelLimit)
          ++ d.warnings.map fun w => w.deeper (detect (Settings.default.upTo 1) square).levels)
    ∧ (∀ l, .levelLimitReached l ∉ (detect (Settings.default.upTo 2) square).warnings)
    ∧ ∃ d, redetect (Settings.default.upTo 1) square
        (detect (Settings.default.upTo 2) square).assignment = .ok d
      ∧ d.levels = 0 ∧ d.assignment = (detect (Settings.default.upTo 2) square).assignment := by
  have hk : 1 ≤ Settings.default.maxIterations := by decide
  have hwarnings : (detect (Settings.default.upTo 2) square).warnings = [] := by decide +kernel
  have hlimit : ∀ l, .levelLimitReached l ∉ (detect (Settings.default.upTo 2) square).warnings :=
    fun l => hwarnings ▸ List.not_mem_nil
  obtain ⟨d, hd, -, -, -, hwarn, -⟩ := redetect_detect .default square 1 1
  obtain ⟨e, he, -, -, -, -, hsame⟩ := redetect_detect .default square 2 1
  exact ⟨hk, ⟨d, hd, hwarn hk⟩, hlimit, e, he, hsame hlimit⟩

end CallCommunities
