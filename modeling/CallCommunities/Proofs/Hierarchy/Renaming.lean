import CallCommunities.Proofs.Hierarchy.Resemblance

/-!
# Proofs/Hierarchy/Renaming — names matter through their order alone

A map that keeps the order of the names of a graph renames its vertices (`CallGraph.rename`): indices
and calls stay, and no two names become one.  The renamed graph resembles the old one, so its vertices
go to the same communities, and what is written down is the old assignment with every name renamed
(`entries_toNames_rename`).  **Detection does not see what the names are, only how they compare**
(`detection_renamed`).
-/

namespace CallCommunities

open Assignment KeyOrder

namespace CallGraph

/-- Whether a map of names keeps the order of the names of `g`. -/
def KeepsOrder (g : CallGraph) (f : String → String) : Prop :=
  ∀ s ∈ g.vertices.items, ∀ t ∈ g.vertices.items, s < t → f s < f t

instance (g : CallGraph) (f : String → String) : Decidable (g.KeepsOrder f) :=
  inferInstanceAs (Decidable (∀ s ∈ g.vertices.items, ∀ t ∈ g.vertices.items, s < t → f s < f t))

variable {g : CallGraph} {f : String → String} {a : Assignment} {s t : String} {v : ℕ}

theorem KeepsOrder.before_of_before (hf : g.KeepsOrder f) (hs : s ∈ g.vertices.items)
    (ht : t ∈ g.vertices.items) (hst : before s t = true) : before (f s) (f t) = true :=
  decide_eq_true (hf s hs t ht (of_decide_eq_true hst))

/-- **Names compare as their images do.** -/
theorem KeepsOrder.before_iff (hf : g.KeepsOrder f) (hs : s ∈ g.vertices.items)
    (ht : t ∈ g.vertices.items) : before (f s) (f t) = true ↔ before s t = true := by
  refine ⟨fun hlt => ?_, hf.before_of_before hs ht⟩
  by_contra hst
  have hback : before t s = false := by
    refine Bool.eq_false_iff.mpr fun hts => ?_
    exact Bool.false_ne_true ((before_asymm hlt).symm.trans (hf.before_of_before ht hs hts))
  have heq := eq_of_not_before (Bool.eq_false_iff.mpr hst) hback
  exact ne_of_before hlt (congrArg f heq)

theorem KeepsOrder.injOn (hf : g.KeepsOrder f) (hs : s ∈ g.vertices.items)
    (ht : t ∈ g.vertices.items) (heq : f s = f t) : s = t := by
  refine eq_of_not_before (Bool.eq_false_iff.mpr fun hlt => ?_)
    (Bool.eq_false_iff.mpr fun hlt => ?_)
  · exact ne_of_before ((hf.before_iff hs ht).mpr hlt) heq
  · exact ne_of_before ((hf.before_iff ht hs).mpr hlt) heq.symm

/-- The same graph under other names. -/
def rename (g : CallGraph) (f : String → String) (hf : g.KeepsOrder f) : CallGraph where
  vertices := ⟨g.vertices.items.map f,
    g.vertices.nodup.map_on fun _ hs _ ht heq => hf.injOn hs ht heq⟩
  weights := g.weights
  fits e he := by
    have hfit := g.fits e he
    rwa [Roster.size, ← List.length_map f] at hfit

variable (hf : g.KeepsOrder f)

theorem vertexCount_rename : (g.rename f hf).vertexCount = g.vertexCount := List.length_map f

theorem name_rename (hv : v < g.vertexCount) : (g.rename f hf).name v = f (g.name v) := by
  have hold : g.vertices.items[v]? = some (g.name v) := getElem?_items.mpr ⟨hv, rfl⟩
  have hnew : (g.rename f hf).vertices.items[v]? = some (f (g.name v)) := by
    rw [rename, List.getElem?_map, hold]
    rfl
  exact (getElem?_items.mp hnew).2

/-- **The renamed graph resembles the old one**: its names come in the same order. -/
theorem resembles_rename : Resembles 1 g (g.rename f hf) where
  vertexCount_eq := vertexCount_rename hf
  rank_le_iff u hu v hv := by
    have hcount := vertexCount_rename hf
    refine rank_le_iff_rank_le hu hv (hcount.symm ▸ hu) (hcount.symm ▸ hv) ?_
    rw [name_rename hf hu, name_rename hf hv, hf.before_iff (name_mem hv) (name_mem hu)]
  linkWeight_eq _ _ := (Nat.one_mul _).symm

/-- **What is written down is renamed**, and stays sorted. -/
theorem entries_toNames_rename (ha : a.Valid g.vertexCount) :
    (toNames (g.rename f hf) a).entries
      = (toNames g a).entries.map fun e => (f e.1, f e.2) := by
  have hkey : ∀ e ∈ (toNames g a).entries, e.1 ∈ g.vertices.items := fun e he =>
    (mem_keys_toNames a).mp (List.mem_map_of_mem he)
  refine SortedMap.entries_eq_of_mem_iff (SortedMap.sorted _) ?_ fun ⟨s, t⟩ => ?_
  · refine List.pairwise_map.mpr ((toNames g a).sorted.imp_of_mem fun {d e} hd he hlt => ?_)
    exact (hf.before_iff (hkey d hd) (hkey e he)).mpr hlt
  · simp only [List.mem_map, ← SortedMap.get?_eq_some_iff, get?_toNames_eq_some_iff, Prod.exists,
      Prod.mk.injEq, vertexCount_rename]
    constructor
    · rintro ⟨v, hv, rfl, rfl⟩
      exact ⟨_, _, ⟨v, hv, rfl, rfl⟩, (name_rename hf hv).symm,
        (name_rename hf (ha.labelOf_lt hv)).symm⟩
    · rintro ⟨_, _, ⟨v, hv, rfl, rfl⟩, rfl, rfl⟩
      exact ⟨v, hv, name_rename hf hv, name_rename hf (ha.labelOf_lt hv)⟩

end CallGraph

open CallGraph Hierarchy

/-- **Names matter to detection through their order alone.**  Rename the vertices of a graph by a map
that keeps the order of its names, and leave all else as it is.  Detection gives every vertex the
renamed community, in as many rounds, with the same modularity, bit by bit, and the same warnings. -/
theorem detection_renamed (settings : Settings) (g : CallGraph) (f : String → String)
    (hf : g.KeepsOrder f) :
    (detect settings (g.rename f hf)).assignment.entries
      = (detect settings g).assignment.entries.map (fun e => (f e.1, f e.2))
    ∧ (detect settings (g.rename f hf)).levels = (detect settings g).levels
    ∧ (detect settings (g.rename f hf)).modularity = (detect settings g).modularity
    ∧ (detect settings (g.rename f hf)).warnings = (detect settings g).warnings := by
  rw [(resembles_rename hf).detect_eq]
  refine ⟨?_, rfl, rfl, rfl⟩
  rw [assignment_detect]
  exact entries_toNames_rename hf (valid_reached settings _ g)

/-- The square with a class in front of its names. -/
theorem detection_renamed_square : ∃ hf : square.KeepsOrder ("Orders." ++ ·),
    (detect .default (square.rename ("Orders." ++ ·) hf)).assignment.entries
      = (detect .default square).assignment.entries.map
        (fun e => ("Orders." ++ e.1, "Orders." ++ e.2)) := by
  have hf : square.KeepsOrder ("Orders." ++ ·) := by decide
  exact ⟨hf, (detection_renamed .default square _ hf).1⟩

end CallCommunities
