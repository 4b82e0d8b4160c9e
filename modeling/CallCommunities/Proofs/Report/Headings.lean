import CallCommunities.Proofs.Graph.Built
import CallCommunities.Proofs.Report.Entries
import Mathlib.Data.List.Destutter

/-!
# Proofs/Report/Headings — the classes in the listing of a graph

A heading stands wherever the class changes, so the headings are the classes of the callers, in the order
of the callers' names, with repeats in a row left out (`headingsIn_listing`).  In that order the callers of
a class need not stand together.  **A class that is interrupted has several headings** (`one_heading_iff`),
and what interrupts it is of one of two kinds (`Breaks`).
-/

namespace CallCommunities

open KeyOrder

/-! ## Lists with repeats in a row left out -/

section Repeats

variable {α : Type} {k a b : α} {l : List α}

/-- Whether a list holds `k`, then something else, and then `k` again. -/
def Resumes (k : α) (l : List α) : Prop := ∃ x, x ≠ k ∧ [k, x, k].Sublist l

theorem resumes_cons_of_ne (ha : a ≠ k) : Resumes k (a :: l) ↔ Resumes k l := by
  refine exists_congr fun x => and_congr_right fun _ => ⟨fun h => ?_, fun h => h.cons a⟩
  cases h with
  | cons _ h => exact h
  | cons_cons => exact absurd rfl ha

/-- After `k` and something else, any `k` resumes. -/
theorem resumes_cons_cons_iff (hb : b ≠ k) : Resumes k (k :: b :: l) ↔ k ∈ l := by
  constructor
  · rintro ⟨x, hx, h⟩
    have hmem : k ∈ b :: l := by
      cases h with
      | cons _ h => exact h.subset (by simp)
      | cons_cons _ h => exact h.subset (by simp)
    exact (List.mem_cons.mp hmem).resolve_left hb.symm
  · exact fun h => ⟨b, hb, ((List.singleton_sublist.mpr h).cons_cons b).cons_cons k⟩

theorem resumes_cons_self_iff [DecidableEq α] : Resumes k (a :: a :: l) ↔ Resumes k (a :: l) := by
  by_cases ha : a = k
  · subst ha
    refine exists_congr fun x => and_congr_right fun hx => ⟨fun h => ?_, fun h => h.cons a⟩
    cases h with
    | cons _ h => exact h
    | cons_cons _ h =>
      cases h with
      | cons _ h => exact h.cons_cons a
      | cons_cons => exact absurd rfl hx
  · rw [resumes_cons_of_ne ha]

variable [DecidableEq α]

theorem mem_destutter'_ne : ∀ {l : List α} {a : α}, k ∈ l.destutter' (· ≠ ·) a ↔ k ∈ a :: l
  | [], a => by rw [List.destutter'_nil]
  | b :: l, a => by
    by_cases hab : a = b
    · subst hab
      rw [List.destutter'_cons_neg _ (not_not.mpr rfl), mem_destutter'_ne]
      simp
    · rw [List.destutter'_cons_pos _ hab, List.mem_cons, mem_destutter'_ne,
        List.mem_cons (a := k) (b := a)]

theorem mem_destutter_ne : k ∈ l.destutter (· ≠ ·) ↔ k ∈ l := by
  cases l with
  | nil => rfl
  | cons a l => exact mem_destutter'_ne

theorem count_destutter'_ne_le_one_iff : ∀ {l : List α} {a : α},
    (l.destutter' (· ≠ ·) a).count k ≤ 1 ↔ ¬ Resumes k (a :: l)
  | [], a => by
    rw [List.destutter'_nil]
    exact iff_of_true List.count_le_length fun ⟨_, _, h⟩ => absurd h.length_le (by simp)
  | b :: l, a => by
    by_cases hab : a = b
    · subst hab
      rw [List.destutter'_cons_neg _ (not_not.mpr rfl), count_destutter'_ne_le_one_iff,
        resumes_cons_self_iff]
    rw [List.destutter'_cons_pos _ hab]
    by_cases ha : a = k
    · -- one `k` is counted already, so that none may follow
      subst ha
      rw [List.count_cons_self, resumes_cons_cons_iff (Ne.symm hab), add_le_iff_nonpos_left,
        Nat.le_zero, List.count_eq_zero, mem_destutter'_ne, List.mem_cons, or_iff_right hab]
    · rw [List.count_cons_of_ne ha, count_destutter'_ne_le_one_iff, resumes_cons_of_ne ha]

/-- **What does not resume is left once.** -/
theorem count_destutter_ne_le_one_iff : (l.destutter (· ≠ ·)).count k ≤ 1 ↔ ¬ Resumes k l := by
  cases l with
  | nil => exact iff_of_true (by simp) fun ⟨_, _, h⟩ => by simp at h
  | cons a l => exact count_destutter'_ne_le_one_iff

end Repeats

/-! ## Headings -/

/-- The headings in some lines. -/
def headingsIn : List ListingLine → List String
  | [] => []
  | .heading k :: rest => k :: headingsIn rest
  | _ :: rest => headingsIn rest

theorem count_heading (k : String) : ∀ lines : List ListingLine,
    lines.count (.heading k) = (headingsIn lines).count k
  | [] => rfl
  | l :: lines => by
    have ih := count_heading k lines
    cases l <;> simp [List.count_cons, headingsIn, ih]

theorem headingsIn_calls (s : String) (calls : List (String × ℕ)) (rest : List ListingLine) :
    headingsIn (.caller s :: (calls.map (fun c => .call c.1 c.2) ++ rest)) = headingsIn rest := by
  induction calls with
  | nil => rfl
  | cons c calls ih => exact ih

namespace CallGraph

variable {g : CallGraph} {s k : String}

theorem headingsIn_groupLines (g : CallGraph) : ∀ (k : String) (vs : List ℕ),
    k :: headingsIn (g.groupLines (some k) vs)
      = (vs.map fun v => classOf (g.name v)).destutter' (· ≠ ·) k
  | _, [] => rfl
  | k, v :: rest => by
    have ih := headingsIn_groupLines g (classOf (g.name v)) rest
    rw [groupLines_cons, List.map_cons, List.destutter'_cons]
    by_cases hk : k = classOf (g.name v)
    · rw [if_pos (congrArg some hk), if_neg (not_not.mpr hk), List.nil_append,
        headingsIn_calls, hk, ih]
    · rw [if_neg (mt Option.some.inj hk), if_pos hk, List.singleton_append, headingsIn,
        headingsIn_calls, ih]

/-- **The headings are the classes of the callers**, with repeats in a row left out. -/
theorem headingsIn_listing (g : CallGraph) :
    headingsIn g.listing = ((g.callers.map g.name).map classOf).destutter (· ≠ ·) := by
  change headingsIn (g.groupLines none g.callers) = _
  rw [List.map_map]
  cases g.callers with
  | nil => rfl
  | cons v rest =>
    rw [groupLines_cons, if_neg (by simp), List.singleton_append, headingsIn, headingsIn_calls,
      headingsIn_groupLines]
    rfl

/-! ## Interrupted classes -/

/-- Whether a caller of another class comes between two callers of class `k`. -/
def Interrupted (g : CallGraph) (k : String) : Prop :=
  ∃ s t u, (g.IsCaller s ∧ classOf s = k) ∧ (g.IsCaller t ∧ classOf t ≠ k)
    ∧ (g.IsCaller u ∧ classOf u = k) ∧ before s t = true ∧ before t u = true

/-- Three members in increasing order stand in the list in this order. -/
theorem sublist_of_before {l : List String} (hl : l.Pairwise fun s t => before s t = true) {t u : String}
    (hs : s ∈ l) (ht : t ∈ l) (hu : u ∈ l) (hst : before s t = true) (htu : before t u = true) :
    [s, t, u].Sublist l := by
  have hfilter : l.filter (· ∈ [s, t, u]) = [s, t, u] := by
    refine eq_of_pairwise_before (hl.sublist List.filter_sublist) ?_ fun j => ?_
    · simp [hst, htu, before_trans hst htu]
    · rw [List.mem_filter, decide_eq_true_eq]
      refine and_iff_right_of_imp fun hj => ?_
      rcases List.mem_cons.mp hj with rfl | hj
      · exact hs
      · rcases List.mem_pair.mp hj with rfl | rfl
        exacts [ht, hu]
  exact hfilter ▸ List.filter_sublist

theorem interrupted_iff : g.Interrupted k ↔ Resumes k ((g.callers.map g.name).map classOf) := by
  constructor
  · rintro ⟨s, t, u, ⟨hs, rfl⟩, ⟨ht, hne⟩, ⟨hu, hk⟩, hst, htu⟩
    refine ⟨classOf t, hne, ?_⟩
    have hsub := (sublist_of_before g.pairwise_callers (mem_map_name_callers.mpr hs)
      (mem_map_name_callers.mpr ht) (mem_map_name_callers.mpr hu) hst htu).map classOf
    rwa [List.map_cons, List.map_cons, List.map_cons, hk] at hsub
  · rintro ⟨x, hx, hsub⟩
    obtain ⟨l, hl, heq⟩ := List.sublist_map_iff.mp hsub
    obtain ⟨s, t, u, rfl⟩ : ∃ s t u, l = [s, t, u] := List.length_eq_three.mp (by
      rw [← List.length_map (f := classOf), ← heq]; rfl)
    simp only [List.map_cons, List.map_nil, List.cons.injEq, and_true] at heq
    have hcaller (j : String) (hj : j ∈ [s, t, u]) : g.IsCaller j :=
      mem_map_name_callers.mp (hl.subset hj)
    have hpairwise := g.pairwise_callers.sublist hl
    simp only [List.pairwise_cons, List.mem_cons, forall_eq_or_imp] at hpairwise
    exact ⟨s, t, u, ⟨hcaller s (by simp), heq.1.symm⟩, ⟨hcaller t (by simp), heq.2.1 ▸ hx⟩,
      ⟨hcaller u (by simp), heq.2.2.symm⟩, hpairwise.1.1, hpairwise.2.1.1⟩

theorem mem_headings : .heading k ∈ g.listing ↔ ∃ s, g.IsCaller s ∧ classOf s = k := by
  rw [← List.count_pos_iff, count_heading, List.count_pos_iff, headingsIn_listing, mem_destutter_ne,
    List.mem_map]
  simp only [mem_map_name_callers]

/-- **A class has one heading when it is not interrupted.** -/
theorem one_heading_iff (hs : g.IsCaller s) :
    g.listing.count (.heading (classOf s)) = 1 ↔ ¬ g.Interrupted (classOf s) := by
  have hpos : 0 < g.listing.count (.heading (classOf s)) :=
    List.count_pos_iff.mpr (mem_headings.mpr ⟨s, hs, rfl⟩)
  rw [interrupted_iff, ← count_destutter_ne_le_one_iff, ← headingsIn_listing, ← count_heading]
  omega

theorem breaks_of_interrupted (h : g.Interrupted k) :
    ∃ t, g.IsCaller t ∧ classOf t ≠ k ∧ Breaks g.IsCaller k t := by
  obtain ⟨s, t, u, ⟨hs, hsk⟩, ⟨ht, htk⟩, ⟨-, huk⟩, hst, htu⟩ := h
  exact ⟨t, ht, htk, breaks_of_between hs hsk huk htk hst htu⟩

end CallGraph

open CallGraph

/-- **How the listing groups the calls of a graph.**  Every vertex that calls anything stands in it once as
a caller, below the heading of its own class, and right below it stand its calls, in the order of the
callees; the callers are in the order of their names.  The classes that have a heading are those of the
callers.  A class has one heading exactly when no caller of another class comes between its callers, which
only callers of two kinds can do (`Breaks`): those of a class inside this class and those whose name goes on
from it with a character before the dot.  When no name holds a line break, the lines can be read off the
text. -/
theorem listing_by_class (g : CallGraph) :
    (∀ s, (g.IsCaller s → g.listing.count (.caller s) = 1)
      ∧ (¬ g.IsCaller s → g.listing.count (.caller s) = 0))
    ∧ (∀ e, e ∈ entriesBelow none g.listing ↔ e.Describes g)
    ∧ (entriesBelow none g.listing).Pairwise (fun e f => before e.caller f.caller = true)
    ∧ (∀ k, .heading k ∈ g.listing ↔ ∃ s, g.IsCaller s ∧ classOf s = k)
    ∧ (∀ s, g.IsCaller s →
      (g.listing.count (.heading (classOf s)) = 1 ↔ ¬ g.Interrupted (classOf s)))
    ∧ (∀ k, g.Interrupted k → ∃ t, g.IsCaller t ∧ classOf t ≠ k ∧ Breaks g.IsCaller k t)
    ∧ ((∀ r ∈ g.vertices.items, '\n' ∉ r.toList) →
      g.renderListing.toList.splitOn '\n' = g.listing.map (·.render.toList) ++ [[]]) := by
  refine ⟨fun s => ?_, fun e => mem_entriesBelow_listing, ?_, fun k => mem_headings,
    fun s => one_heading_iff, fun k => breaks_of_interrupted, splitOn_renderListing⟩
  · rw [count_caller_listing, ← mem_map_name_callers]
    exact ⟨List.count_eq_one_of_mem (g.pairwise_callers.imp ne_of_before), List.count_eq_zero.mpr⟩
  · rw [entriesBelow_listing]
    exact List.pairwise_map.mpr (List.pairwise_map.mp g.pairwise_callers)

/-- Calls from a class and from a class inside it. -/
def nestedCalls : List Observation := [⟨"A.a", "X.x", 1⟩, ⟨"A.b.c", "X.x", 1⟩, ⟨"A.d", "X.x", 1⟩]

/-- The graph of these calls. -/
def nestedGraph : CallGraph := ((Builder.empty false .perMethod).observeAll nestedCalls).graph

theorem isCaller_nestedGraph {s : String} (h : 0 < nestedGraph.callsNamed s "X.x") :
    nestedGraph.IsCaller s := ⟨"X.x", h⟩

/-- `A.b.c` comes between `A.a` and `A.d`, so the class `A` does not have one heading. -/
theorem listing_by_class_nested : nestedGraph.listing.count (.heading "A") ≠ 1
    ∧ nestedGraph.listing.count (.heading "A.b") = 1
    ∧ nestedGraph.renderListing.toList.splitOn '\n'
      = nestedGraph.listing.map (·.render.toList) ++ [[]] := by
  obtain ⟨-, -, -, -, hone, -, htext⟩ := listing_by_class nestedGraph
  have ha : nestedGraph.IsCaller "A.a" := isCaller_nestedGraph (by decide +kernel)
  have hc : nestedGraph.IsCaller "A.b.c" := isCaller_nestedGraph (by decide +kernel)
  have hd : nestedGraph.IsCaller "A.d" := isCaller_nestedGraph (by decide +kernel)
  refine ⟨mt (hone "A.a" ha).mp (not_not.mpr ?_), by decide +kernel, htext (by decide +kernel)⟩
  exact ⟨"A.a", "A.b.c", "A.d", ⟨ha, by decide +kernel⟩, ⟨hc, by decide +kernel⟩,
    ⟨hd, by decide +kernel⟩, by decide +kernel, by decide +kernel⟩

/-- **A class can be headed twice**, its callers apart. -/
theorem class_headed_twice :
    ∃ g, ((Builder.empty false .perMethod).observeAll nestedCalls).build = .ok g
      ∧ g.IsCaller "A.a" ∧ g.IsCaller "A.d" ∧ classOf "A.a" = "A" ∧ classOf "A.d" = "A"
      ∧ g.listing = [.summary 4 3 3, .heading "A", .caller "A.a", .call "X.x" 1,
        .heading "A.b", .caller "A.b.c", .call "X.x" 1, .heading "A", .caller "A.d", .call "X.x" 1]
      ∧ g.listing.count (.heading "A") = 2 :=
  ⟨nestedGraph, Builder.build_eq_ok_iff.mpr ⟨by decide +kernel, rfl⟩,
    isCaller_nestedGraph (by decide +kernel), isCaller_nestedGraph (by decide +kernel),
    by decide +kernel, by decide +kernel, by decide +kernel, by decide +kernel⟩

end CallCommunities
